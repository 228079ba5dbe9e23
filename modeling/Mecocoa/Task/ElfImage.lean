import Mecocoa.File.CacheInv
import Mecocoa.Task.ElfPages

/-! # An image under page faults

A page of the image that is resident shows the reference image, and so does
every cached page of the file that a fault may still bring in.  Both survive
because their pages are referenced: the allocator hands out neither, and the
cache evicts only pages that nobody maps.
-/

namespace Mecocoa.Elf

open Memory Lib Sys List Option
open Function (update update_self update_of_ne)

/-- What an image is loaded from. -/
structure Image where
  headers : List Pht
  bias : Nat
  source : Nat → UInt8
  ino : Nat
  fileSize : Nat

namespace Image

def byte (img : Image) (a : Nat) : UInt8 := referenceImage img.source img.bias img.headers a

/-- The physical page that a process has at a page of the image. -/
def leaf (img : Image) (p : Nat) (s : Sys) (a : Nat) : Option Nat :=
  if touched img.headers img.bias a then leafFrame s (p, a) else none

end Image

def mappingRefs (s : Sys) (f : Nat) : Nat := ((s.managed f).map (·.mappingRefs)).getD 0

def cacheRefs (s : Sys) (f : Nat) : Nat := ((s.managed f).map (·.cacheRefs)).getD 0

/-- The file of the image is the one that the loader reads, and no shared mapping of it
holds newer bytes. -/
structure FileReads (img : Image) (s : Sys) : Prop where
  size : (s.inodes img.ino).iSize = img.fileSize
  bytes : ∀ offset < img.fileSize, (s.inodes img.ino).backend offset = img.source offset
  clean : ∀ pg ∈ s.shared, pg.identity = img.ino → pg.dirty = false

theorem FileReads.congr (file : FileReads img s)
    (inodes : s'.inodes = s.inodes) (shared : s'.shared = s.shared) : FileReads img s' :=
  ⟨inodes ▸ file.size, inodes ▸ file.bytes, shared ▸ file.clean⟩

/-- Cached pages of the file's current version hold its bytes. -/
def CacheHolds (img : Image) (s : Sys) : Prop :=
  ∀ e ∈ s.cache, e.identity = img.ino →
  e.contentVersion = (s.inodes img.ino).contentVersion →
    HoldsFile s e.physicalAddress img.ino e.fileOffset

/-- What the loader and later faults keep; `extra` lists mapping references in flight. -/
structure Kept (img : Image) (p : Nat) (extra : List Nat) (s : Sys) : Prop where
  owned : ∀ f page, s.managed f = some page → s.pool.owned f = true
  finite : ∀ f, (holders (img.leaf p s) f).Finite
  held : ∀ f, (holders (img.leaf p s) f).ncard + extra.count f ≤ mappingRefs s f
  cacheFrames : (s.cache.map (·.physicalAddress)).Nodup
  cached : ∀ e ∈ s.cache, 1 ≤ cacheRefs s e.physicalAddress
  shows : ∀ a f, img.leaf p s a = some f → ∀ i < pageSize, s.mem f i = img.byte (a + i)
  holds : CacheHolds img s
  file : FileReads img s

section Books

variable {img : Image} {p f : Nat}

theorem leaf_congr (procs : s'.procs = s.procs) : img.leaf p s' = img.leaf p s := by
  funext a
  unfold Image.leaf leafFrame pte
  rw [procs]

theorem mappingRefs_of_none (free : s.managed f = none) : mappingRefs s f = 0 := by
  simp [mappingRefs, free]

theorem cacheRefs_of_none (free : s.managed f = none) : cacheRefs s f = 0 := by
  simp [cacheRefs, free]

namespace Kept

variable (kept : Kept img p extra s)

include kept

theorem leaf_held (here : img.leaf p s a = some f) : 1 ≤ mappingRefs s f := by
  have one : 0 < (holders (img.leaf p s) f).ncard :=
    (Set.ncard_pos (kept.finite f)).mpr ⟨a, here⟩
  have := kept.held f
  omega

theorem leaf_ne (free : s.managed f = none) (a : Nat) : img.leaf p s a ≠ some f := by
  intro here
  have := kept.leaf_held here
  rw [mappingRefs_of_none free] at this
  omega

theorem cached_ne (free : s.managed f = none) : ∀ e ∈ s.cache, e.physicalAddress ≠ f := by
  rintro e member rfl
  have := kept.cached e member
  rw [cacheRefs_of_none free] at this
  omega

/-- Changes of reference counts that take none away from a page in use. -/
theorem refs (same : RefsOnly s s')
    (owned : ∀ f page, s'.managed f = some page → s'.pool.owned f = true)
    (held : ∀ f, (holders (img.leaf p s) f).ncard + extra'.count f ≤ mappingRefs s' f)
    (cached : ∀ e ∈ s.cache, 1 ≤ cacheRefs s' e.physicalAddress) : Kept img p extra' s' where
  owned := owned
  finite := by
    rw [leaf_congr same.procs]
    exact kept.finite
  held := by
    rw [leaf_congr same.procs]
    exact held
  cacheFrames := same.cache ▸ kept.cacheFrames
  cached := by
    rw [same.cache]
    exact cached
  shows := by
    rw [leaf_congr same.procs, same.mem]
    exact kept.shows
  holds := by
    unfold CacheHolds HoldsFile
    rw [same.cache, same.mem, same.inodes]
    exact kept.holds
  file := kept.file.congr same.inodes same.shared

theorem copyToFrame (free : s.managed f = none) (first length : Nat)
    (bytes : Nat → UInt8) : Kept img p extra (s.copyToFrame f first length bytes) where
  owned := kept.owned
  finite := kept.finite
  held := kept.held
  cacheFrames := kept.cacheFrames
  cached := kept.cached
  shows := by
    intro a g here i small
    have other : g ≠ f := by
      rintro rfl
      exact kept.leaf_ne free a here
    rw [copyToFrame_mem, update_of_ne other]
    exact kept.shows a g here i small
  holds := by
    intro e member identity version
    have other := kept.cached_ne free e member
    exact (kept.holds e member identity version).congr (update_of_ne other ..) rfl
  file := kept.file.congr rfl rfl

theorem allocatePage (answer : Option Nat) :
    allocatePage s answer = (none, s) ∨ ∃ f s', allocatePage s answer = (some f, s') ∧
      Kept img p extra s' ∧ RefsOnly s s' ∧ s'.managed = s.managed ∧ s.managed f = none ∧
      s'.pool.owned f = true := by
  rcases allocatePage_cases s answer with none | ⟨f, -, unowned, done⟩
  · exact .inl none
  · have free : s.managed f = none := by
      cases managed : s.managed f with
      | none => rfl
      | some page => exact absurd (kept.owned f page managed) (by simp [unowned])
    refine .inr ⟨f, _, done, ?_, ⟨rfl, rfl, rfl, rfl, rfl, rfl, rfl⟩, rfl, free, by simp⟩
    refine kept.refs ⟨rfl, rfl, rfl, rfl, rfl, rfl, rfl⟩ ?_ kept.held kept.cached
    intro g page managed
    by_cases same : g = f
    · simp [same]
    · simp only [update_of_ne same]
      exact kept.owned g page managed

theorem deallocatePage (free : s.managed f = none) : Kept img p extra (deallocatePage s f) := by
  refine kept.refs (.deallocatePage s f) ?_ kept.held kept.cached
  intro g page managed
  have other : g ≠ f := by
    rintro rfl
    exact absurd (free.symm.trans managed) (by simp)
  simp only [Memory.deallocatePage, update_of_ne other]
  exact kept.owned g page managed

/-- A page comes under management with some references, one of them held by the caller. -/
theorem setManaged (owned : s.pool.owned f = true)
    (here : (holders (img.leaf p s) f).ncard + extra'.count f ≤ page.mappingRefs)
    (others : ∀ g, g ≠ f → extra'.count g ≤ extra.count g)
    (caches : cacheRefs s f ≤ page.cacheRefs) :
    Kept img p extra' (s.setManaged f (some page)) := by
  refine kept.refs (.setManaged s f _) ?_ ?_ ?_
  · intro g page' managed
    by_cases same : g = f
    · exact same ▸ owned
    · exact kept.owned g page' (by simpa [Sys.setManaged, same] using managed)
  · intro g
    by_cases same : g = f
    · subst same
      simpa [mappingRefs, setManaged] using here
    · have old := kept.held g
      have fewer := others g same
      simp only [mappingRefs, Sys.setManaged, update_of_ne same] at old ⊢
      omega
  · intro e member
    have old := kept.cached e member
    by_cases same : e.physicalAddress = f
    · rw [same] at old ⊢
      simp only [cacheRefs, Sys.setManaged, update_self, map_some, getD_some] at *
      omega
    · simpa [cacheRefs, Sys.setManaged, same] using old

theorem ncard_free (free : s.managed f = none) :
    (holders (img.leaf p s) f).ncard = 0 ∧ extra.count f = 0 := by
  have := kept.held f
  rw [mappingRefs_of_none free] at this
  omega

theorem adoptManagedPage (free : s.managed f = none)
    (owned : s.pool.owned f = true) (source : ManagedPageSource) (nodes : Bool) :
    (∃ s', adoptManagedPage s f source nodes = (false, s') ∧ Kept img p extra s') ∨
      adoptManagedPage s f source nodes = (true, s.setManaged f (some ⟨source, 1, 0⟩)) ∧
        Kept img p (f :: extra) (s.setManaged f (some ⟨source, 1, 0⟩)) := by
  unfold Memory.adoptManagedPage
  cases nodes with
  | false => exact .inl ⟨_, rfl, kept.deallocatePage free⟩
  | true =>
    rw [free]
    obtain ⟨none, unheld⟩ := kept.ncard_free free
    refine .inr ⟨rfl, kept.setManaged owned (by simp [none, unheld]) ?_ ?_⟩
    · intro g other
      rw [count_cons_of_ne (Ne.symm other)]
    · rw [cacheRefs_of_none free]

theorem retainManagedPageMapping (t : Target) (f : Nat) :
    retainManagedPageMapping t s f = (false, s) ∨ ∃ s', retainManagedPageMapping t s f =
      (true, s') ∧
      Kept img p (f :: extra) s' ∧ RefsOnly s s' := by
  unfold Memory.retainManagedPageMapping
  cases managed : s.managed f with
  | none => exact .inl rfl
  | some page =>
    dsimp only
    split
    · exact .inl rfl
    · refine .inr ⟨_, rfl, ?_, .setManaged s f _⟩
      have old := kept.held f
      simp only [mappingRefs, managed, map_some, getD_some] at old
      refine kept.setManaged (kept.owned f page managed) ?_ ?_ ?_
      · rw [count_cons_self]
        dsimp only
        omega
      · intro g other
        rw [count_cons_of_ne (Ne.symm other)]
      · simp [cacheRefs, managed]

/-- A page that neither the image nor the cache uses goes back to the allocator. -/
theorem discard (unmapped : mappingRefs s f = 0)
    (uncached : ∀ e ∈ s.cache, e.physicalAddress ≠ f) :
    Kept img p extra (Memory.deallocatePage (s.setManaged f none) f) := by
  have others : ∀ g, g ≠ f → (Memory.deallocatePage (s.setManaged f none) f).managed g =
      s.managed g :=
    fun g other => update_of_ne other ..
  refine kept.refs ((RefsOnly.setManaged s f none).trans (.deallocatePage _ f)) ?_ ?_ ?_
  · intro g page there
    by_cases same : g = f
    · subst same
      simp [Memory.deallocatePage, Sys.setManaged] at there
    · rw [others g same] at there
      simp only [Memory.deallocatePage, update_of_ne same]
      exact kept.owned g page there
  · intro g
    have old := kept.held g
    by_cases same : g = f
    · subst same
      omega
    · unfold mappingRefs
      rw [others g same]
      exact old
  · intro e member
    unfold cacheRefs
    rw [others _ (uncached e member)]
    exact kept.cached e member

omit kept

/-- A reference in flight is given back. -/
theorem releaseManagedPageMapping (kept : Kept img p (f :: extra) s) :
    Kept img p extra (releaseManagedPageMapping s f).2 := by
  have old := kept.held f
  rw [count_cons_self] at old
  unfold Memory.releaseManagedPageMapping
  cases managed : s.managed f with
  | none =>
    rw [mappingRefs_of_none managed] at old
    omega
  | some page =>
    simp only [mappingRefs, managed, map_some, getD_some] at old
    dsimp only
    rw [if_neg (by omega)]
    have lower :
        Kept img p extra
          (s.setManaged f (some { page with mappingRefs := page.mappingRefs - 1 })) := by
      refine kept.setManaged (kept.owned f page managed) ?_ ?_ ?_
      · dsimp only
        omega
      · intro g other
        rw [count_cons_of_ne (Ne.symm other)]
      · simp [cacheRefs, managed]
    unfold dropManagedPage
    dsimp only
    split
    · rename_i unused
      have last :=
          lower.discard (f := f) (by simp [mappingRefs, Sys.setManaged, unused.1])
            fun e member same => by
        have counted := lower.cached e member
        rw [same] at counted
        simp [cacheRefs, Sys.setManaged, unused.2] at counted
      simpa [Sys.setManaged] using last
    · exact lower

/-! ### Leaves -/

theorem leaf_setPte (img : Image) (p : Nat) (s : Sys)
    (inside : touched img.headers img.bias a = true) (e : Option Pte) :
    img.leaf p (s.setPte p a e) = update (img.leaf p s) a (e.map (·.frame)) := by
  funext b
  unfold Image.leaf
  rw [leafFrame_setPte]
  by_cases same : b = a
  · subst same
    simp [inside]
  · rw [update_of_ne same, update_of_ne (by simp [same])]

theorem install (kept : Kept img p (f :: extra) s)
    (inside : touched img.headers img.bias a = true) (free : s.pte p a = none) (props : PageProps)
    (right : ∀ i < pageSize, s.mem f i = img.byte (a + i)) :
    Kept img p extra (s.setPte p a (some ⟨f, props⟩)) := by
  have table := leaf_setPte img p s inside (some ⟨f, props⟩)
  have empty : img.leaf p s a = none := by simp [Image.leaf, leafFrame, free]
  dsimp only [map_some] at table
  refine ⟨kept.owned, ?_, ?_, kept.cacheFrames, kept.cached, ?_, kept.holds,
    kept.file.congr rfl rfl⟩
  · rw [table]
    exact finite_holders_install kept.finite empty
  · intro g
    have old := kept.held g
    change _ ≤ mappingRefs s g
    rw [count_cons] at old
    simp only [beq_iff_eq] at old
    rw [table, ncard_holders_install kept.finite empty]
    omega
  · intro b g here
    rw [table] at here
    by_cases same : b = a
    · subst same
      rw [update_self] at here
      cases here
      exact right
    · rw [update_of_ne same] at here
      exact kept.shows b g here

/-- A resident page gives way to one that shows the same. -/
theorem replace (kept : Kept img p (f :: extra) s)
    (inside : touched img.headers img.bias a = true) (here : s.pte p a = some e) (props : PageProps)
    (right : ∀ i < pageSize, s.mem f i = img.byte (a + i)) :
    Kept img p (e.frame :: extra) (s.setPte p a (some ⟨f, props⟩)) := by
  have mapped : img.leaf p s a = some e.frame := by simp [Image.leaf, inside, leafFrame, here]
  have table := leaf_setPte img p s inside none
  have removed : Kept img p (f :: e.frame :: extra) (s.setPte p a none) := by
    dsimp only [map_none] at table
    refine ⟨kept.owned, ?_, ?_, kept.cacheFrames, kept.cached, ?_, kept.holds,
      kept.file.congr rfl rfl⟩
    · rw [table]
      exact finite_holders_remove kept.finite
    · intro g
      have old := kept.held g
      change _ ≤ mappingRefs s g
      have fewer := ncard_holders_remove kept.finite mapped g
      rw [table]
      simp only [count_cons, beq_iff_eq] at old ⊢
      omega
    · intro b g there
      rw [table] at there
      by_cases same : b = a
      · subst same
        simp at there
      · rw [update_of_ne same] at there
        exact kept.shows b g there
  have again := removed.install inside (by simp [pte_setPte]) props right
  rwa [setPte_setPte] at again

theorem setProps (kept : Kept img p extra s)
    (inside : touched img.headers img.bias a = true) (here : s.pte p a = some e)
    (props : PageProps) :
    Kept img p extra (s.setPte p a (some ⟨e.frame, props⟩)) := by
  have mapped : img.leaf p s a = some e.frame := by simp [Image.leaf, inside, leafFrame, here]
  have same : img.leaf p (s.setPte p a (some ⟨e.frame, props⟩)) = img.leaf p s := by
    rw [leaf_setPte img p s inside]
    exact Function.update_eq_self_iff.mpr mapped.symm
  refine ⟨kept.owned, ?_, ?_, kept.cacheFrames, kept.cached, ?_, kept.holds,
    kept.file.congr rfl rfl⟩
  · rw [same]
    exact kept.finite
  · rw [same]
    exact kept.held
  · rw [same]
    exact kept.shows

/-! ### The page cache -/

/-- Records that nobody uses give their references back. -/
theorem releaseCaches (frames : List Nat) : ∀ {s : Sys}, Kept img p extra s → frames.Nodup →
    (∀ f ∈ frames, onlyCached s f = true) →
    (∀ f ∈ frames, ∀ e ∈ s.cache, e.physicalAddress ≠ f) →
    Kept img p extra (releaseCaches s frames) ∧ ∀ f, f ∉ frames →
      (releaseCaches s frames).managed f = s.managed f ∧
        (releaseCaches s frames).pool.owned f = s.pool.owned f := by
  induction frames with
  | nil => exact fun kept _ _ _ => ⟨kept, fun _ _ => ⟨rfl, rfl⟩⟩
  | cons f rest ih =>
    intro s kept once only out
    obtain ⟨fresh, once⟩ := nodup_cons.mp once
    have here := only f (.head _)
    unfold onlyCached at here
    cases managed : s.managed f with
    | none => simp [managed] at here
    | some page =>
      simp only [managed, Bool.and_eq_true, beq_iff_eq] at here
      have gone :
          (releaseManagedPageCache s f).2 = Memory.deallocatePage (s.setManaged f none) f := by
        simp [releaseManagedPageCache, managed, dropManagedPage, here]
      have others : ∀ g, g ≠ f → (Memory.deallocatePage (s.setManaged f none) f).managed g =
          s.managed g := fun g other => update_of_ne other ..
      have next := kept.discard (by
          simp only [mappingRefs, managed, map_some, getD_some, here.1])
        (out f (.head _))
      simp only [Memory.releaseCaches, gone]
      obtain ⟨last, same⟩ := ih next once
        (fun g member => by
          have other : g ≠ f := fun same => fresh (same ▸ member)
          unfold onlyCached
          rw [others g other]
          exact only g (mem_cons_of_mem f member))
        (fun g member => out g (mem_cons_of_mem f member))
      refine ⟨last, fun g outside => ?_⟩
      rw [mem_cons, not_or] at outside
      obtain ⟨managedSame, ownedSame⟩ := same g outside.2
      exact ⟨managedSame.trans (others g outside.1),
        ownedSame.trans (update_of_ne outside.1 ..)⟩

variable (kept : Kept img p extra s)

include kept

/-- Unused records leave the cache; pages that have none keep their references. -/
theorem detachInactiveReadyPages (limit : Nat) :
    Kept img p extra (detachInactiveReadyPages s limit).2 ∧
      ∀ f, (∀ e ∈ s.cache, e.physicalAddress ≠ f) →
      (detachInactiveReadyPages s limit).2.managed f = s.managed f ∧
        (detachInactiveReadyPages s limit).2.pool.owned f = s.pool.owned f := by
  unfold Memory.detachInactiveReadyPages
  obtain ⟨perm, sub, idle⟩ :=
    detachInactive_spec (fun e => onlyCached s e.physicalAddress) s.cache limit
  generalize detachInactive (fun e => onlyCached s e.physicalAddress) limit s.cache = result at *
  obtain ⟨left, removed⟩ := result
  have frames := perm.map (·.physicalAddress)
  rw [map_append] at frames
  have apart := frames.nodup_iff.mp kept.cacheFrames
  have fewer : Kept img p extra { s with cache := left } :=
    ⟨kept.owned, kept.finite, kept.held, kept.cacheFrames.sublist (sub.map _),
      fun e member => kept.cached e (sub.subset member), kept.shows,
      fun e member => kept.holds e (sub.subset member), kept.file.congr rfl rfl⟩
  have only : ∀ f ∈ removed.map (·.physicalAddress), onlyCached { s with cache := left } f =
      true := by
    intro f member
    obtain ⟨e, inside, rfl⟩ := mem_map.mp member
    exact idle e inside
  have out : ∀ f ∈ removed.map (·.physicalAddress), ∀ e ∈ left, e.physicalAddress ≠
      f := by
    rintro f member e inside rfl
    exact (nodup_append.mp apart).2.2 _ (mem_map_of_mem inside) _ member rfl
  obtain ⟨last, same⟩ := fewer.releaseCaches (removed.map (·.physicalAddress))
    (nodup_append.mp apart).2.1 only out
  refine ⟨last, fun f uncached => same f fun member => ?_⟩
  obtain ⟨e, inside, here⟩ := mem_map.mp member
  exact uncached e (perm.mem_iff.mpr (mem_append_right _ inside)) here

omit kept in
/-- A filled page enters a cache with one cache reference. -/
theorem publishPage_fresh (t : Target) (free : s.managed f = none) (nodes : Bool) :
    publishPage t s f nodes = (false, Memory.deallocatePage s f) ∨
      publishPage t s f nodes = (true, s.setManaged f (some ⟨.file, 0, 1⟩)) := by
  have large : (0 : Nat) ≠ t.maxWord := by
    have := t.pageSize_le_word
    unfold Target.maxWord
    omega
  unfold publishPage
  cases nodes with
  | false => exact .inl (by simp [Memory.adoptManagedPage])
  | true =>
    apply Or.inr
    simp [Memory.adoptManagedPage, free, retainManagedPageCache, Sys.setManaged, large,
      Memory.releaseManagedPageMapping, dropManagedPage]

theorem publishPage (t : Target) (free : s.managed f = none) (owned : s.pool.owned f = true)
    (nodes : Bool) :
    (∃ s', publishPage t s f nodes = (false, s') ∧ Kept img p extra s' ∧ RefsOnly s s') ∨
      publishPage t s f nodes = (true, s.setManaged f (some ⟨.file, 0, 1⟩)) ∧
        Kept img p extra (s.setManaged f (some ⟨.file, 0, 1⟩)) := by
  rcases publishPage_fresh t free nodes with refused | done
  · exact .inl ⟨_, refused, kept.deallocatePage free, .deallocatePage s f⟩
  · obtain ⟨none, unheld⟩ := kept.ncard_free free
    refine .inr ⟨done, kept.setManaged owned ?_ (fun _ _ => le_refl _) ?_⟩
    · dsimp only
      omega
    · rw [cacheRefs_of_none free]
      omega

theorem insertCache (fresh : ∀ e ∈ s.cache, e.physicalAddress ≠ f)
    (counted : 1 ≤ cacheRefs s f) (version fileOffset : Nat)
    (right : HoldsFile s f img.ino fileOffset) : Kept img p extra { s with
      cache := insertRecord cacheBucket s.cache ⟨img.ino, version, fileOffset, f⟩ } := by
  have perm := perm_insertRecord cacheBucket s.cache ⟨img.ino, version, fileOffset, f⟩
  refine ⟨kept.owned, kept.finite, kept.held, ?_, ?_, kept.shows, ?_, kept.file.congr rfl rfl⟩
  · rw [(perm.map _).nodup_iff, map_cons, nodup_cons]
    refine ⟨fun member => ?_, kept.cacheFrames⟩
    obtain ⟨e, inside, same⟩ := mem_map.mp member
    exact fresh e inside same
  · intro e member
    rcases mem_cons.mp (perm.mem_iff.mp member) with rfl | old
    · exact counted
    · exact kept.cached e old
  · intro e member
    rcases mem_cons.mp (perm.mem_iff.mp member) with rfl | old
    · exact fun _ _ => right
    · exact kept.holds e old

theorem allocateOrReclaim (outcome : FillOutcome) :
    ∃ answer s', allocateOrReclaim (Memory.detachInactiveReadyPages · 1) s outcome =
      (answer, s') ∧
      Kept img p extra s' ∧ s'.procs = s.procs ∧ ∀ f, answer = some f →
      s'.managed f = none ∧ s'.pool.owned f = true := by
  unfold Memory.allocateOrReclaim
  rcases kept.allocatePage outcome.page with none |
    ⟨f, s₁, done, kept₁, same₁, managed₁, free, owned⟩
  · rw [none]
    dsimp only
    obtain ⟨reclaimed, -⟩ := kept.detachInactiveReadyPages 1
    obtain ⟨frame, -⟩ := detachInactiveReadyPages_frame s 1
    have procs := frame.procs
    generalize Memory.detachInactiveReadyPages s 1 = result at *
    obtain ⟨count, s₂⟩ := result
    cases count with
    | zero => exact ⟨_, s₂, rfl, reclaimed, procs, by simp⟩
    | succ count =>
      dsimp only
      rcases reclaimed.allocatePage outcome.retryPage with
        none | ⟨f, s₃, done, kept₃, same₃, managed₃, free, owned⟩
      · rw [none]
        exact ⟨_, s₂, rfl, reclaimed, procs, by simp⟩
      · rw [done]
        refine ⟨_, s₃, rfl, kept₃, same₃.procs.trans procs, ?_⟩
        rintro g ⟨⟩
        exact ⟨managed₃ ▸ free, owned⟩
  · rw [done]
    refine ⟨_, s₁, rfl, kept₁, same₁.procs, ?_⟩
    rintro g ⟨⟩
    exact ⟨managed₁ ▸ free, owned⟩

/-- A page of the file out of the cache, read in if need be. -/
theorem getCachedPage (t : Target) (fileOffset : Nat) (outcome : FillOutcome) :
    ∃ result s', getCachedPage t s img.ino fileOffset outcome = (result, s') ∧
      Kept img p extra s' ∧
      s'.procs = s.procs ∧ ∀ f, result = .ready f → HoldsFile s' f img.ino fileOffset := by
  unfold Memory.getCachedPage
  dsimp only
  split
  · exact ⟨_, s, rfl, kept, rfl, by simp⟩
  split
  · rename_i e found
    have key := find?_some found
    simp only [Bool.and_eq_true, beq_iff_eq] at key
    refine ⟨_, s, rfl, kept, rfl, ?_⟩
    rintro f ⟨⟩
    rw [← key.2]
    exact kept.holds e (mem_of_find?_eq_some found) key.1.1 key.1.2
  split
  · exact ⟨_, s, rfl, kept, rfl, by simp⟩
  obtain ⟨kept₁, -⟩ := kept.detachInactiveReadyPages (s.cache.length + 1 - retainedPageLimit)
  obtain ⟨frame₁, -⟩ :=
    detachInactiveReadyPages_frame s (s.cache.length + 1 - retainedPageLimit)
  have procs₁ := frame₁.procs
  generalize (Memory.detachInactiveReadyPages s (s.cache.length + 1 - retainedPageLimit)).2 =
    s₁ at *
  obtain ⟨answer, s₂, ran₂, kept₂, procs₂, fresh⟩ := kept₁.allocateOrReclaim outcome
  have procs : s₂.procs = s.procs := procs₂.trans procs₁
  rw [ran₂]
  cases answer with
  | none => exact ⟨_, s₂, rfl, kept₂, procs, by simp⟩
  | some f =>
    dsimp only
    obtain ⟨free, owned⟩ := fresh f rfl
    have zeroed : Kept img p extra (s₂.zeroFrame f) := kept₂.copyToFrame free ..
    split
    · exact ⟨_, _, rfl, zeroed.deallocatePage free, procs, by simp⟩
    split
    · exact ⟨_, _, rfl, zeroed.deallocatePage free, procs, by simp⟩
    rename_i below _
    have right := fillPage_holds (s₂.zeroFrame f) f img.ino fileOffset
      (min pageSize (((s₂.zeroFrame f).inodes img.ino).iSize - fileOffset)) (by omega)
    generalize is : fillPage (s₂.zeroFrame f) f img.ino fileOffset
      (min pageSize (((s₂.zeroFrame f).inodes img.ino).iSize - fileOffset)) = s₃ at *
    have filled : Kept img p extra s₃ := is ▸ (zeroed.copyToFrame free ..).copyToFrame free ..
    have sameProcs : s₃.procs = s.procs := is ▸ procs
    have stillFree : s₃.managed f = none := is ▸ free
    have stillOwned : s₃.pool.owned f = true := is ▸ owned
    rcases filled.publishPage t stillFree stillOwned outcome.adopted with
      ⟨s₄, refused, kept₄, same₄⟩ | ⟨done, kept₄⟩
    · rw [refused]
      exact ⟨_, s₄, rfl, kept₄, same₄.procs.trans sameProcs, by simp⟩
    rw [done]
    dsimp only
    have apart : ∀ e ∈ (s₃.setManaged f (some ⟨.file, 0, 1⟩)).cache, e.physicalAddress ≠
        f :=
      filled.cached_ne stillFree
    have counted : (s₃.setManaged f (some ⟨.file, 0, 1⟩)).managed f =
        some ⟨.file, 0, 1⟩ :=
      update_self ..
    have holds : HoldsFile (s₃.setManaged f (some ⟨.file, 0, 1⟩)) f img.ino fileOffset :=
      right.congr rfl rfl
    have procs₄ : (s₃.setManaged f (some ⟨.file, 0, 1⟩)).procs = s.procs := sameProcs
    generalize s₃.setManaged f (some ⟨.file, 0, 1⟩) = s₄ at *
    obtain ⟨kept₅, same₅⟩ :=
      kept₄.detachInactiveReadyPages (s₄.cache.length + 1 - retainedPageLimit)
    obtain ⟨frame₅, sub₅⟩ :=
      detachInactiveReadyPages_frame s₄ (s₄.cache.length + 1 - retainedPageLimit)
    obtain ⟨managed₅, -⟩ := same₅ f apart
    generalize (Memory.detachInactiveReadyPages s₄
      (s₄.cache.length + 1 - retainedPageLimit)).2 = s₅ at *
    have holds₅ : HoldsFile s₅ f img.ino fileOffset :=
      holds.congr (congrFun frame₅.mem f) (congrFun frame₅.inodes img.ino)
    refine ⟨_, _, rfl,
      kept₅.insertCache (fun e member => apart e (sub₅.subset member)) ?_ _ _ holds₅,
      frame₅.procs.trans procs₄, ?_⟩
    · unfold cacheRefs
      rw [managed₅, counted]
      exact le_refl 1
    · rintro g ⟨⟩
      exact holds₅.congr rfl rfl

omit kept

/-! ### Pages that a fault brings in -/

theorem zeroPage (kept : Kept img p extra s) (answer : Option Nat) (source : ManagedPageSource)
    (nodes : Bool) :
    (∃ s', zeroPage s answer source nodes = (none, s') ∧ Kept img p extra s' ∧
      s'.procs = s.procs) ∨
      ∃ f s', zeroPage s answer source nodes = (some f, s') ∧ Kept img p (f :: extra) s' ∧
        s'.procs = s.procs ∧ s.managed f = none ∧ s'.managed f = some ⟨source, 1, 0⟩ ∧
        ∀ i < pageSize, s'.mem f i = 0 := by
  unfold Memory.zeroPage
  rcases kept.allocatePage answer with none |
    ⟨f, s₁, done, kept₁, same₁, managed₁, free, owned⟩
  · rw [none]
    exact .inl ⟨s, rfl, kept, rfl⟩
  · rw [done]
    dsimp only
    have free₁ : s₁.managed f = none := managed₁ ▸ free
    have zeroed : Kept img p extra (s₁.zeroFrame f) := kept₁.copyToFrame free₁ ..
    rcases zeroed.adoptManagedPage free₁ owned source nodes with
      ⟨s₂, refused, kept₂⟩ | ⟨adopted, kept₂⟩
    · have same := RefsOnly.adoptManagedPage (s₁.zeroFrame f) f source nodes
      rw [refused] at same ⊢
      exact .inl ⟨s₂, rfl, kept₂, same.procs.trans same₁.procs⟩
    · rw [adopted]
      refine .inr ⟨f, _, rfl, kept₂, same₁.procs, free, update_self .., ?_⟩
      intro i small
      simp [Sys.setManaged, Sys.zeroFrame, Sys.copyToFrame, small]

/-- A page in flight is mapped at its place in the image, or given back. -/
theorem installPage (kept : Kept img p (f :: extra) s)
    (inside : touched img.headers img.bias a = true) (free : s.pte p a = none) (props : PageProps)
    (right : ∀ i < pageSize, s.mem f i = img.byte (a + i)) (mapped : Bool) :
    Kept img p extra (installPage s p a f props mapped).2 ∧
      (installPage s p a f props mapped).2.vmas p = s.vmas p ∧
      ∀ b, (s.pte p b).isSome → ((installPage s p a f props mapped).2.pte p b).isSome := by
  unfold Memory.installPage
  cases mapped with
  | false =>
    have same := RefsOnly.releaseManagedPageMapping s f
    exact ⟨kept.releaseManagedPageMapping, same.vmas p, fun b resident => by
      simpa [same.pte] using resident⟩
  | true =>
    refine ⟨kept.install inside free props right, vmas_setPte .., fun b resident => ?_⟩
    simp only [if_true, pte_setPte]
    split
    · rfl
    · exact resident

end Kept

end Books

/-! ## Faults on the image -/

/-- The headers describe bytes of the file. -/
structure ImageOk (t : Target) (img : Image) : Prop where
  sizes : SizesOk img.headers
  inFile : ∀ ph ∈ img.headers, ph.loads = true → ph.pOffset + ph.pFilesz ≤ img.fileSize
  fits : img.fileSize ≤ t.maxWord

/-- The area is the one that the plan of the page asks for. -/
structure AreaFits (img : Image) (a : Nat) (plan : ELFLoadPagePlan) (v : Vma) : Prop where
  mode : v.vmMode = .priv
  flags : v.vmFlags = plan.flags
  file : plan.kind = .file → v.vmType = .file ∧
    (∃ file, v.vfile = some file ∧ file.fInode = some img.ino) ∧
    v.fileOffset + (a - v.vmStart) = plan.fileOffset
  anonymous : plan.kind ≠ .file → v.vmType = .anonymous

/-- An image whose areas are in place and whose private pages are filled. -/
structure Loaded (t : Target) (img : Image) (p : Nat) (s : Sys) : Prop where
  kept : Kept img p [] s
  areas : ∀ a, Aligned a → touched img.headers img.bias a = true →
    ∃ plan v, describeELFLoadPage t img.headers img.bias a = some plan ∧
      vmaAt (s.vmas p) a = some v ∧ AreaFits img a plan v
  filled : ∀ a plan, Aligned a → describeELFLoadPage t img.headers img.bias a = some plan →
    plan.kind = .priv → (s.pte p a).isSome

section Faults

variable {s s' : Sys}

/-- Nothing but a fault on the image happened. -/
structure FaultKept (img : Image) (p : Nat) (s s' : Sys) : Prop where
  kept : Kept img p [] s'
  vmas : s'.vmas p = s.vmas p
  resident : ∀ b, (s.pte p b).isSome → (s'.pte p b).isSome

theorem FaultKept.of_procs (kept : Kept img p [] s') (procs : s'.procs = s.procs) :
    FaultKept img p s s' :=
  ⟨kept, by rw [Sys.vmas, procs, Sys.vmas], fun b => by rw [Sys.pte, Sys.pte, procs]; exact id⟩

theorem Loaded.next (loaded : Loaded t img p s) (fault : FaultKept img p s s') :
    Loaded t img p s' :=
  ⟨fault.kept, by rw [fault.vmas]; exact loaded.areas,
    fun a plan aligned described kind =>
    fault.resident a (loaded.filled a plan aligned described kind)⟩

theorem Kept.faultInstall (kept : Kept img p [f] s') (procs : s'.procs = s.procs)
    (inside : touched img.headers img.bias a = true) (free : s'.pte p a = none) (props : PageProps)
    (right : ∀ i < pageSize, s'.mem f i = img.byte (a + i)) (mapped : Bool) :
    FaultKept img p s (Memory.installPage s' p a f props mapped).2 := by
  obtain ⟨last, vmas, resident⟩ := kept.installPage inside free props right mapped
  exact ⟨last, vmas.trans (by unfold Sys.vmas; rw [procs]),
    fun b here => resident b (by rw [pte, procs]; exact here)⟩

/-- A whole page of file bytes lies inside the file. -/
theorem Described.file_inside (ok : ImageOk t img)
    (described : Described t img.headers img.bias a plan) (kind : plan.kind = .file) :
    plan.fileOffset + pageSize ≤ img.fileSize := by
  obtain ⟨ph, before, after, split, loads, -, low, inside, offset⟩ := described.file_split kind
  have := ok.inFile ph (split ▸ mem_append_right _ (.head _)) loads
  omega

/-- No shared mapping of the file has bytes to write back. -/
theorem Kept.flush_idle (kept : Kept img p extra s) (t : Target) (fileOffset : Nat)
    (outcome : FlushOutcome) : flushSharedFilePage t s img.ino fileOffset outcome = (true, s) := by
  unfold flushSharedFilePage
  cases found : findSharedPage s img.ino fileOffset with
  | none => rfl
  | some pg =>
    obtain ⟨member, identity, -⟩ := findSharedPage_some found
    simp [kept.file.clean pg member identity]

theorem Kept.acquirePage (kept : Kept img p [] s) (ok : ImageOk t img)
    (described : Described t img.headers img.bias a plan) (kind : plan.kind = .file)
    (outcome : FaultOutcome) :
    (∃ s', privateFilePage t s img.ino plan.fileOffset outcome = (none, s') ∧
      Kept img p [] s' ∧ s'.procs = s.procs) ∨
      ∃ f s', privateFilePage t s img.ino plan.fileOffset outcome = (some f, s') ∧
      Kept img p [f] s' ∧
        s'.procs = s.procs ∧ ∀ i < pageSize, s'.mem f i = img.byte (a + i) := by
  have inside := described.file_inside ok kind
  have positive : 0 < pageSize := by simp [pageSize]
  have below : ¬ (s.inodes img.ino).iSize ≤ plan.fileOffset := by
    rw [kept.file.size]
    omega
  unfold privateFilePage acquireCachedFileMappingPage
  rw [if_neg below]
  by_cases aligned : Aligned plan.fileOffset
  · obtain ⟨result, s₁, ran, kept₁, procs₁, right⟩ :=
      kept.getCachedPage t plan.fileOffset outcome.fill
    rw [if_neg (not_not.mpr aligned), ran]
    cases result with
    | retry | error => exact .inl ⟨s₁, rfl, kept₁, procs₁⟩
    | ready f =>
      dsimp only
      rcases kept₁.retainManagedPageMapping t f with refused |
        ⟨s₂, retained, kept₂, same₂⟩
      · rw [refused]
        exact .inl ⟨s₁, rfl, kept₁, procs₁⟩
      · rw [retained]
        refine .inr ⟨f, s₂, rfl, kept₂, same₂.procs.trans procs₁, fun i small => ?_⟩
        have within : plan.fileOffset + i < img.fileSize := by omega
        have here := right f rfl i small (by rw [kept₁.file.size]; exact within)
        rw [same₂.mem, here, kept₁.file.bytes _ within]
        exact (described.file_bytes kind ok.sizes small).symm
  · rw [if_pos aligned]
    exact .inl ⟨s, rfl, kept, rfl⟩

theorem Kept.filePage (kept : Kept img p [] s) (ok : ImageOk t img)
    (described : Described t img.headers img.bias a plan) (kind : plan.kind = .file)
    (free : s.pte p a = none) (access : VirtualMemoryAccess) (flags : PageProps)
    (outcome : FaultOutcome) :
    FaultKept img p s
      (mapCachedFileVmaPage t s p a access flags img.ino plan.fileOffset outcome).2 := by
  unfold mapCachedFileVmaPage
  rw [kept.flush_idle]
  dsimp only
  rcases kept.acquirePage ok described kind outcome with
    ⟨s₁, none, kept₁, procs₁⟩ | ⟨f, s₁, ran, kept₁, procs₁, bytes⟩
  · rw [none]
    exact .of_procs kept₁ procs₁
  · rw [ran]
    dsimp only
    have free₁ : s₁.pte p a = none := by
      rw [pte, procs₁]
      exact free
    have installed :=
      kept₁.faultInstall procs₁ described.touched free₁ (filePageProps flags) bytes
      outcome.mapped
    generalize Memory.installPage s₁ p a f (filePageProps flags) outcome.mapped = result at *
    obtain ⟨mapped, s₂⟩ := result
    cases mapped <;> exact installed

theorem Loaded.ensureVmaPage (loaded : Loaded t img p s) (ok : ImageOk t img) (aligned : Aligned a)
    (inside : touched img.headers img.bias a = true) (access : VirtualMemoryAccess)
    (outcome : FaultOutcome) : FaultKept img p s (ensureVmaPage t s p a access outcome).2 := by
  obtain ⟨plan, v, planned, area, fits⟩ := loaded.areas a aligned inside
  have described := describe_some planned
  have kept := loaded.kept
  have unchanged : FaultKept img p s s := .of_procs kept rfl
  unfold Memory.ensureVmaPage
  rw [area]
  dsimp only
  split
  · exact unchanged
  split
  · exact unchanged
  rename_i _ absent
  have free : s.pte p a = none := by simpa using absent
  by_cases kind : plan.kind = .file
  · obtain ⟨type, ⟨file, vfile, fInode⟩, offset⟩ := fits.file kind
    have within := described.file_inside ok kind
    have wrapped : t.wrap (v.fileOffset + (a - v.vmStart)) = plan.fileOffset := by
      have := ok.fits
      rw [offset]
      exact Target.wrap_of_le (by omega)
    rw [type, vfile]
    dsimp only
    split
    · exact unchanged
    · rw [fInode, fits.mode, wrapped]
      exact kept.filePage ok described kind free access v.vmFlags outcome
  · rw [fits.anonymous kind]
    have zero : plan.kind = .zero := by
      cases which : plan.kind with
      | file => exact absurd which kind
      | zero => rfl
      | priv =>
        have := loaded.filled a plan aligned planned which
        simp [free] at this
    rcases kept.zeroPage outcome.page .anonymous outcome.adopted with
      ⟨s₁, refused, kept₁, procs₁⟩ | ⟨f, s₁, done, kept₁, procs₁, -, -, bytes⟩
    · rw [refused]
      exact .of_procs kept₁ procs₁
    · rw [done]
      dsimp only
      have free₁ : s₁.pte p a = none := by
        rw [pte, procs₁]
        exact free
      have result := kept₁.faultInstall procs₁ inside free₁ v.vmFlags.access
        (fun i small => by
          rw [bytes i small]
          exact (foldl_layPht_zero _ (described.bare zero) ok.sizes small _ rfl).symm)
          outcome.mapped
      generalize installPage s₁ p a f v.vmFlags.access outcome.mapped = installed at *
      obtain ⟨mapped, s₂⟩ := installed
      cases mapped <;> exact result

theorem FaultKept.setPte (kept : Kept img p [] (s'.setPte p a (some e)))
    (procs : s'.procs = s.procs) :
    FaultKept img p s (s'.setPte p a (some e)) := by
  refine ⟨kept, ?_, ?_⟩
  · rw [Sys.vmas_setPte, Sys.vmas, procs, Sys.vmas]
  · intro b here
    rw [pte_setPte]
    split
    · rfl
    · rw [pte, procs]
      exact here

/-- A write to a private page that others may see gets a copy of it. -/
theorem Kept.copyPrivatePage (kept : Kept img p [] s)
    (inside : touched img.headers img.bias a = true) (here : s.pte p a = some old)
    (outcome : FaultOutcome) :
    FaultKept img p s (copyPrivatePage s p a old outcome).2 := by
  have shown : ∀ i < pageSize, s.mem old.frame i = img.byte (a + i) :=
    kept.shows a old.frame (by simp [Image.leaf, inside, leafFrame, here])
  unfold Memory.copyPrivatePage
  rcases kept.allocatePage outcome.copyPage with none |
    ⟨f, s₁, done, kept₁, same₁, managed₁, free, owned⟩
  · rw [none]
    exact .of_procs kept rfl
  rw [done]
  dsimp only
  have free₁ : s₁.managed f = none := managed₁ ▸ free
  split
  · exact .of_procs (kept₁.deallocatePage free₁) same₁.procs
  have copied : Kept img p [] (s₁.copyToFrame f 0 pageSize (s₁.mem old.frame)) :=
    kept₁.copyToFrame free₁ ..
  rcases copied.adoptManagedPage free₁ owned .anonymous outcome.copyAdopted with
    ⟨s₂, refused, kept₂⟩ | ⟨adopted, kept₂⟩
  · have same := RefsOnly.adoptManagedPage (s₁.copyToFrame f 0 pageSize (s₁.mem old.frame)) f
      .anonymous outcome.copyAdopted
    rw [refused] at same ⊢
    exact .of_procs kept₂ (same.procs.trans same₁.procs)
  rw [adopted]
  dsimp only
  have bytes : ∀ i < pageSize, ((s₁.copyToFrame f 0 pageSize (s₁.mem old.frame)).setManaged f
      (some ⟨.anonymous, 1, 0⟩)).mem f i = img.byte (a + i) := by
    intro i small
    rw [← shown i small, ← same₁.mem]
    simp [Sys.setManaged, Sys.copyToFrame, small]
  have procs₂ : ((s₁.copyToFrame f 0 pageSize (s₁.mem old.frame)).setManaged f
      (some ⟨.anonymous, 1, 0⟩)).procs = s.procs := same₁.procs
  generalize (s₁.copyToFrame f 0 pageSize (s₁.mem old.frame)).setManaged f
    (some ⟨.anonymous, 1, 0⟩) = s₂ at *
  split
  · have same := RefsOnly.releaseManagedPageMapping s₂ f
    exact .of_procs kept₂.releaseManagedPageMapping (same.procs.trans procs₂)
  · have here₂ : s₂.pte p a = some old := by
      rw [pte, procs₂]
      exact here
    have swapped := kept₂.replace inside here₂ old.props.withWrite bytes
    have same := RefsOnly.releaseManagedPageMapping
      (s₂.setPte p a (some ⟨f, old.props.withWrite⟩)) old.frame
    have last := swapped.releaseManagedPageMapping
    refine ⟨last, ?_, ?_⟩
    · rw [same.vmas, vmas_setPte, vmas, procs₂, vmas]
    · intro b resident
      rw [same.pte, pte_setPte]
      split
      · rfl
      · rw [pte, procs₂]
        exact resident

theorem Kept.resolvePrivateCowPage (kept : Kept img p [] s)
    (inside : touched img.headers img.bias a = true) (outcome : FaultOutcome) :
    FaultKept img p s (resolvePrivateCowPage s p a outcome).2 := by
  have unchanged : FaultKept img p s s := .of_procs kept rfl
  unfold Memory.resolvePrivateCowPage
  split
  · exact unchanged
  rename_i old type found
  have here : s.pte p a = some old := by
    unfold readPrivateCowPage at found
    split at found
    · cases found
    · obtain ⟨_, found⟩ := ite_none_left_eq_some.mp found
      split at found
      · cases found
      · rename_i e leaf
        obtain ⟨_, found⟩ := ite_none_right_eq_some.mp found
        obtain ⟨rfl, -⟩ := Prod.mk.inj (some.inj found)
        exact leaf
  split
  · exact unchanged
  split
  · exact unchanged
  split
  · split
    · exact unchanged
    · exact .setPte (kept.setProps inside here _) rfl
  · exact kept.copyPrivatePage inside here outcome

/-- A write fault on the image after the page was brought in. -/
theorem Loaded.resolveWrite (loaded : Loaded t img p s) (aligned : Aligned a)
    (inside : touched img.headers img.bias a = true) (outcome : FaultOutcome) :
    Loaded t img p (match resolveSharedFileWrite s p a outcome.sharedSetup with
      | (some frame, s) => (some frame, s)
      | (none, s) => resolvePrivateCowPage s p a outcome).2 := by
  obtain ⟨plan, v, -, area, fits⟩ := loaded.areas a aligned inside
  have unshared : sharedWriteKey s p a = none := by
    unfold sharedWriteKey
    rw [area]
    simp [fits.mode]
  unfold resolveSharedFileWrite
  rw [unshared]
  exact loaded.next (loaded.kept.resolvePrivateCowPage inside outcome)

/-- A fault on the image leaves it loaded. -/
theorem Loaded.resolveVmaFault (loaded : Loaded t img p s) (ok : ImageOk t img)
    (inside : touched img.headers img.bias (pageFloor address) = true)
    (access : VirtualMemoryAccess) (protectionFault : Bool) (outcome : FaultOutcome) :
    Loaded t img p (resolveVmaFault t s p address access protectionFault outcome).2 := by
  have aligned := Aligned.pageFloor address
  unfold Memory.resolveVmaFault
  cases protectionFault with
  | true =>
    simp only [if_true]
    split
    · exact loaded
    · exact loaded.resolveWrite aligned inside outcome
  | false =>
    simp only [Bool.false_eq_true, if_false]
    have step := loaded.next (loaded.ensureVmaPage ok aligned inside access outcome)
    split
    · exact step
    · exact step.resolveWrite aligned inside outcome

end Faults

end Mecocoa.Elf
