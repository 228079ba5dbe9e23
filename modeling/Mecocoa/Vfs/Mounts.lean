import Mecocoa.Vfs.Dentry

/-! # Mount links stay whole

The entries form a forest whose tops are the roots of the mounted file systems, and each
such root and its mount point name each other.  Lookups and creations only add entries;
mounting adds a root; unmounting takes a whole tree away, which breaks a link only where
that tree holds a mount point.
-/

namespace Mecocoa.Vfs

open Dcache Lib List
open Function (update_of_ne update_apply)

variable {Fs N : Type} {s s' : Dcache Fs N}

structure Wf (s : Dcache Fs N) : Prop where
  rootLive : s.live vfsRoot
  rootTop : s.parent vfsRoot = none ∧ s.mountedOn vfsRoot = none
  bounded : ∀ d, s.live d → d < s.next
  parentOk : ∀ d p, s.live d → s.parent d = some p → s.live p ∧ p < d ∧ d ∈ s.children p
  childOk : ∀ d c, s.live d → c ∈ s.children d → s.live c ∧ s.parent c = some d
  inner : ∀ d p, s.live d → s.parent d = some p → s.mountedOn d = none
  rootBlock : 0 ∈ s.superBlocks
  blocks : s.superBlocks.Nodup
  blockBound : ∀ b ∈ s.superBlocks, b < s.nextBlock
  roots : ∀ b ∈ s.superBlocks, b ≠ 0 → s.live (s.sRoot b) ∧
    s.parent (s.sRoot b) = none ∧
    s.sb (s.sRoot b) = b ∧ s.sRoot b ≠ vfsRoot
  tops : ∀ d, s.live d → s.parent d = none → d ≠ vfsRoot → s.sb d ∈ s.superBlocks ∧
    s.sb d ≠ 0 ∧ s.sRoot (s.sb d) = d ∧
      ∃ t, s.mountedOn d = some t ∧ s.live t ∧ t < d ∧ s.mounts t = some d
  mountsOk : ∀ d r, s.live d → s.mounts d = some r → s.live r ∧ s.parent r = none ∧
    r ≠ vfsRoot ∧ s.mountedOn r = some d

/-- `s'` has the entries of `s`, and new ones that carry no mount. -/
structure Grows (s s' : Dcache Fs N) : Prop where
  next : s.next ≤ s'.next
  live : ∀ d, s.live d → s'.live d
  fresh : ∀ d, s'.live d → s.live d ∨ s.next ≤ d ∧ s'.mounts d = none ∧
    ∃ p, s'.parent d = some p
  same : ∀ d, s.live d → s'.parent d = s.parent d ∧ s'.name d = s.name d ∧
    s'.sb d = s.sb d ∧
    s'.node d = s.node d ∧ s'.mounts d = s.mounts d ∧ s'.mountedOn d = s.mountedOn d
  children : ∀ d, s.live d → s.children d <+: s'.children d
  superBlocks : s'.superBlocks = s.superBlocks
  nextBlock : s'.nextBlock = s.nextBlock
  driver : s'.driver = s.driver
  sRoot : s'.sRoot = s.sRoot

theorem Grows.refl (s : Dcache Fs N) : Grows s s where
  next := le_rfl
  live _ here := here
  fresh _ here := .inl here
  same _ _ := ⟨rfl, rfl, rfl, rfl, rfl, rfl⟩
  children _ _ := prefix_rfl
  superBlocks := rfl
  nextBlock := rfl
  driver := rfl
  sRoot := rfl

theorem Grows.trans (first : Grows s s') (second : Grows s' s'') : Grows s s'' where
  next := first.next.trans second.next
  live d here := second.live d (first.live d here)
  fresh d here := by
    rcases second.fresh d here with mid | ⟨late, unmounted, parent⟩
    · have := second.same d mid
      rcases first.fresh d mid with old | new
      · exact .inl old
      · grind
    · exact .inr ⟨first.next.trans late, unmounted, parent⟩
  same d here := by
    have := first.same d here
    have := second.same d (first.live d here)
    grind
  children d here := (first.children d here).trans (second.children d (first.live d here))
  superBlocks := second.superBlocks.trans first.superBlocks
  nextBlock := second.nextBlock.trans first.nextBlock
  driver := second.driver.trans first.driver
  sRoot := second.sRoot.trans first.sRoot

namespace Wf

variable (wf : Wf s)

include wf

theorem live_ne_next (live : s.live d) : d ≠ s.next := by
  have := wf.bounded d live
  omega

theorem lookup_live (live : s.live d) {name} (found : s.lookupDentry d name = some c) :
    s.live c ∧ s.parent c = some d ∧ s.name c = name ∧ c ∈ s.children d := by
  have member := mem_of_find?_eq_some found
  have named := find?_some found
  simp only [decide_eq_true_eq] at named
  have := wf.childOk d c live member
  exact ⟨this.1, this.2, named, member⟩

theorem cross_live (live : s.live d) : s.live (s.cross d) := by
  unfold cross
  cases mounted : s.mounts d with
  | none => exact live
  | some r => exact (wf.mountsOk d r live mounted).1

theorem up_live (live : s.live d) : s.live (s.up d) := by
  unfold up
  cases parent : s.parent d with
  | some p => exact (wf.parentOk d p live parent).1
  | none =>
    by_cases root : d = vfsRoot
    · subst root
      rw [wf.rootTop.2]
      exact live
    · obtain ⟨_, _, _, t, mounted, liveT, _, _⟩ := wf.tops d live parent root
      simp only [mounted]
      cases above : s.parent t with
      | none => exact liveT
      | some q => exact (wf.parentOk t q liveT above).1

theorem alloc (live : s.live p) (name : Name) (sb : Nat) (node : Option N) :
    Wf (s.allocDentry (some p) name sb node) ∧ Grows s (s.allocDentry (some p) name sb node) := by
  have notRoot : s.next ≠ vfsRoot := fun same => wf.live_ne_next wf.rootLive same.symm
  have dead : s.live s.next ≠ true := fun here => wf.live_ne_next here rfl
  have pBound := wf.bounded p live
  constructor
  · constructor
    · have := wf.rootLive
      simp only [allocDentry, update_apply]
      grind
    · have := wf.rootTop
      simp only [allocDentry, update_apply]
      grind
    · intro d here
      have := wf.bounded d
      simp only [allocDentry, update_apply] at *
      grind
    · intro d q here parent
      have := wf.parentOk d q
      simp only [allocDentry, update_apply] at *
      grind
    · intro d c here member
      have := wf.childOk d c
      simp only [allocDentry, update_apply] at *
      grind
    · intro d q here parent
      have := wf.inner d q
      simp only [allocDentry, update_apply] at *
      grind
    · exact wf.rootBlock
    · exact wf.blocks
    · exact wf.blockBound
    · intro b member notZero
      have := wf.roots b member notZero
      simp only [allocDentry, update_apply] at *
      grind
    · intro d here top notRoot
      have := wf.tops d
      simp only [allocDentry, update_apply] at *
      grind
    · intro d r here mounted
      have := wf.mountsOk d r
      simp only [allocDentry, update_apply] at *
      grind
  · constructor
    · simp [allocDentry]
    · intro d here
      simp only [allocDentry, update_apply]
      grind
    · intro d here
      by_cases new : d = s.next
      · exact .inr (by simp [allocDentry, new])
      · simp only [allocDentry, update_of_ne new] at here
        exact .inl here
    · intro d here
      have := wf.live_ne_next here
      simp only [allocDentry, update_apply]
      grind
    · intro d here
      have := wf.live_ne_next here
      simp only [allocDentry, update_apply]
      grind
    · rfl
    · rfl
    · rfl
    · rfl

theorem onSearchSegment {ctx} (live : s.live ctx.current) (node : N) (name : Name) :
    Wf (s.onSearchSegment node name ctx).2.2 ∧ Grows s (s.onSearchSegment node name ctx).2.2 ∧
      (s.onSearchSegment node name ctx).2.2.live (s.onSearchSegment node name ctx).2.1.current := by
  unfold Dcache.onSearchSegment
  cases found : s.lookupDentry ctx.current name with
  | some d =>
    have here := (wf.lookup_live live found).1
    dsimp only
    cases mounted : s.mounts d with
    | none => exact ⟨wf, .refl s, here⟩
    | some r => exact ⟨wf, .refl s, (wf.mountsOk d r here mounted).1⟩
  | none =>
    obtain ⟨wf', grows⟩ := wf.alloc live name ctx.sb (some node)
    have unmounted : (s.allocDentry (some ctx.current) name ctx.sb (some node)).mounts s.next =
        none := by
      simp [allocDentry]
    dsimp only
    rw [unmounted]
    exact ⟨wf', grows, by simp [allocDentry]⟩

theorem search (fs : Fs) (path : List Name) (node : N) (ctx : Ctx) (live : s.live ctx.current) :
    Wf (s.search B fs path node ctx).2 ∧ Grows s (s.search B fs path node ctx).2 ∧
      ∀ ctx' ∈ (s.search B fs path node ctx).1,
      (s.search B fs path node ctx).2.live ctx'.current := by
  induction path generalizing s ctx node with
  | nil => exact ⟨wf, .refl s, by rintro _ ⟨⟩; exact live⟩
  | cons name rest ih =>
    unfold Dcache.search
    cases B.child fs node name with
    | none => exact ⟨wf, .refl s, by rintro _ ⟨⟩⟩
    | some below =>
      obtain ⟨wf', grows, live'⟩ := wf.onSearchSegment live below name
      dsimp only
      generalize s.onSearchSegment below name ctx = reported at *
      obtain ⟨goOn, ctx', mid⟩ := reported
      cases goOn with
      | true =>
        obtain ⟨wf'', grows', live''⟩ := ih wf' below ctx' live'
        exact ⟨wf'', grows.trans grows', live''⟩
      | false => exact ⟨wf', grows, by rintro _ ⟨⟩; exact live'⟩

theorem mountRoot_live (live : s.live d) (fuel : Nat) : s.live (s.mountRoot fuel d) := by
  induction fuel generalizing d with
  | zero => exact live
  | succ fuel ih =>
    unfold mountRoot
    cases parent : s.parent d with
    | none => exact live
    | some p => exact ih (wf.parentOk d p live parent).1

theorem delegate (live : s.live d) (path : List Name) :
    Wf (s.delegate B d path).2 ∧ Grows s (s.delegate B d path).2 ∧
      ∀ e ∈ (s.delegate B d path).1, (s.delegate B d path).2.live e := by
  unfold Dcache.delegate
  cases s.driver (s.sb d) with
  | rootfs => exact ⟨wf, .refl s, by rintro _ ⟨⟩⟩
  | backend fs =>
    dsimp only
    obtain ⟨wf', grows, live'⟩ :=
      wf.search (B := B) fs (s.innerPath (s.mountRoot d d) d ++ path)
      (B.root fs) ⟨s.mountRoot d d, s.sb d⟩ (wf.mountRoot_live live d)
    generalize s.search B fs _ _ _ = found at *
    obtain ⟨ctx, mid⟩ := found
    cases ctx with
    | none => exact ⟨wf', grows, by rintro _ ⟨⟩⟩
    | some ctx =>
      refine ⟨wf', grows, ?_⟩
      rintro _ ⟨⟩
      exact wf'.cross_live (live' ctx rfl)

theorem indexFrom (path : List Name) (live : s.live d) :
    Wf (s.indexFrom B path d).2 ∧ Grows s (s.indexFrom B path d).2 ∧
      ∀ e ∈ (s.indexFrom B path d).1, (s.indexFrom B path d).2.live e := by
  induction path generalizing d with
  | nil =>
    refine ⟨wf, .refl s, ?_⟩
    rintro _ ⟨⟩
    exact wf.cross_live live
  | cons component rest ih =>
    unfold Dcache.indexFrom
    dsimp only
    split
    · exact ih live
    split
    · exact ih (wf.up_live live)
    cases found : s.lookupDentry d (component.take (vfsMaxFilename - 1)) with
    | none => exact wf.delegate live (component :: rest)
    | some c => exact ih (wf.cross_live (wf.lookup_live live found).1)

theorem start_live (path : List Char) (inUse : base.all s.live) : s.live (startOf path base) := by
  unfold startOf
  split
  · exact wf.rootLive
  · cases base with
    | none => exact wf.rootLive
    | some b => exact inUse

theorem index (path : List Char) (base : Option Nat) (inUse : base.all s.live) :
    Wf (s.index B path base).2 ∧ Grows s (s.index B path base).2 ∧
      ∀ e ∈ (s.index B path base).1, (s.index B path base).2.live e := by
  unfold Dcache.index
  split
  · exact ⟨wf, .refl s, by rintro _ ⟨⟩⟩
  · exact wf.indexFrom (components path) (wf.start_live path inUse)

theorem createFrom (path : List Name) (live : s.live d) :
    Wf (s.createFrom path d).2 ∧ Grows s (s.createFrom path d).2 ∧
      (s.createFrom path d).2.live (s.createFrom path d).1 := by
  induction path generalizing s d with
  | nil => exact ⟨wf, .refl s, live⟩
  | cons component rest ih =>
    unfold Dcache.createFrom
    dsimp only
    cases found : s.lookupDentry d (component.take (vfsMaxFilename - 1)) with
    | some c => exact ih wf (wf.cross_live (wf.lookup_live live found).1)
    | none =>
      obtain ⟨wf', grows⟩ := wf.alloc live (component.take (vfsMaxFilename - 1)) (s.sb d) none
      obtain ⟨wf'', grows', live'⟩ := ih (d := s.next) wf' (by simp [allocDentry])
      exact ⟨wf'', grows.trans grows', live'⟩

theorem create (path : List Char) (base : Option Nat) (inUse : base.all s.live) :
    Wf (s.create path base).2 ∧ Grows s (s.create path base).2 ∧
      ∀ e ∈ (s.create path base).1, (s.create path base).2.live e := by
  unfold Dcache.create
  split
  · exact ⟨wf, .refl s, by rintro _ ⟨⟩⟩
  · obtain ⟨wf', grows, live⟩ := wf.createFrom (components path) (wf.start_live path inUse)
    refine ⟨wf', grows, ?_⟩
    rintro _ ⟨⟩
    exact live

theorem mountTarget (path : List Char) :
    Wf (s.mountTarget B path).2 ∧ Grows s (s.mountTarget B path).2 ∧
      ∀ e ∈ (s.mountTarget B path).1, (s.mountTarget B path).2.live e := by
  unfold Dcache.mountTarget
  obtain ⟨wf', grows, live⟩ := wf.index (B := B) path none rfl
  generalize s.index B path none = found at *
  obtain ⟨target, mid⟩ := found
  cases target with
  | some target => exact ⟨wf', grows, live⟩
  | none =>
    obtain ⟨wf'', grows', live'⟩ := wf'.create path none rfl
    exact ⟨wf'', grows.trans grows', live'⟩

theorem attach (fs : Fs) (live : s.live target) (free : s.mounts target = none) :
    Wf (s.attach B fs target) := by
  have notRoot : s.next ≠ vfsRoot := fun same => wf.live_ne_next wf.rootLive same.symm
  have bound := wf.bounded target live
  have newBlock : s.nextBlock ∉ s.superBlocks :=
    fun member => lt_irrefl _ (wf.blockBound _ member)
  have dead : s.live s.next ≠ true := fun here => wf.live_ne_next here rfl
  constructor
  · have := wf.rootLive
    simp only [Dcache.attach, allocDentry, update_apply]
    grind
  · have := wf.rootTop
    simp only [Dcache.attach, allocDentry, update_apply]
    grind
  · intro d here
    have := wf.bounded d
    simp only [Dcache.attach, allocDentry, update_apply] at *
    grind
  · intro d q here parent
    have := wf.parentOk d q
    simp only [Dcache.attach, allocDentry, update_apply] at *
    grind
  · intro d c here member
    have := wf.childOk d c
    simp only [Dcache.attach, allocDentry, update_apply] at *
    grind
  · intro d q here parent
    have := wf.inner d q
    simp only [Dcache.attach, allocDentry, update_apply] at *
    grind
  · exact mem_cons_of_mem _ wf.rootBlock
  · exact nodup_cons.mpr ⟨newBlock, wf.blocks⟩
  · intro b member
    have := wf.blockBound b
    simp only [Dcache.attach, allocDentry, mem_cons] at *
    grind
  · intro b member notZero
    have := wf.roots b
    simp only [Dcache.attach, allocDentry, update_apply, mem_cons] at *
    grind
  · intro d here top notRoot
    have notZero : s.nextBlock ≠ 0 := by
      have := wf.blockBound 0 wf.rootBlock
      omega
    by_cases new : d = s.next
    · subst new
      refine ⟨?_, ?_, ?_, target, ?_⟩ <;> simp [Dcache.attach, allocDentry, notZero, live,
        bound, bound.ne]
    · simp only [Dcache.attach, allocDentry, update_of_ne new] at here top
      obtain ⟨member, other, root, t, mounted, liveT, older, back⟩ := wf.tops d here top notRoot
      have apart : t ≠ target := by
        rintro rfl
        rw [free] at back
        cases back
      have known : s.sb d ≠ s.nextBlock := fun same => newBlock (same ▸ member)
      refine ⟨?_, ?_, ?_, t, ?_⟩ <;>
        simp [Dcache.attach, allocDentry, new, member, other, known, root, mounted, liveT, older,
          back, apart,
          wf.live_ne_next liveT]
  · intro d r here mounted
    have := wf.mountsOk d r
    simp only [Dcache.attach, allocDentry, update_apply] at *
    grind

theorem subtree_closed : ∀ (fuel d : Nat), s.live d → s.next ≤ d + fuel →
    ∀ x ∈ subtree s.children fuel d, ∀ c ∈ s.children x,
      c ∈ subtree s.children fuel d := by
  intro fuel
  induction fuel with
  | zero =>
    intro d live deep
    have := wf.bounded d live
    omega
  | succ fuel ih =>
    intro d live deep x member c below
    simp only [subtree, mem_cons, mem_flatMap] at member ⊢
    rcases member with rfl | ⟨first, isChild, inside⟩
    · obtain ⟨liveC, parent⟩ := wf.childOk x c live below
      have younger := (wf.parentOk c x liveC parent).2.1
      have bound := wf.bounded c liveC
      obtain ⟨fuel, rfl⟩ : ∃ k, fuel = k + 1 := ⟨fuel - 1, by omega⟩
      exact .inr ⟨c, below, by simp [subtree]⟩
    · obtain ⟨liveFirst, parent⟩ := wf.childOk d first live isChild
      have younger := (wf.parentOk first d liveFirst parent).2.1
      exact .inr ⟨first, isChild, ih first liveFirst (by omega) x inside c below⟩

omit wf

end Wf

theorem subtree_parent (children : Nat → List Nat) :
    ∀ (fuel d x : Nat), x ∈ subtree children fuel d →
    x = d ∨ ∃ q ∈ subtree children fuel d, x ∈ children q := by
  intro fuel
  induction fuel with
  | zero =>
    intro d x member
    cases member
  | succ fuel ih =>
    intro d x member
    simp only [subtree, mem_cons, mem_flatMap] at member
    rcases member with rfl | ⟨first, isChild, inside⟩
    · exact .inl rfl
    · right
      rcases ih first x inside with rfl | ⟨q, inTree, below⟩
      · exact ⟨d, by simp [subtree], isChild⟩
      · exact ⟨q, by simp only [subtree, mem_cons, mem_flatMap]; exact .inr ⟨first, isChild,
          inTree⟩, below⟩

/-- No entry of the tree below `root` carries a mount. -/
def NoMountBelow (s : Dcache Fs N) (root : Nat) : Prop :=
  ∀ x ∈ subtree s.children s.next root, s.mounts x = none

instance (s : Dcache Fs N) (root : Nat) : Decidable (NoMountBelow s root) :=
  inferInstanceAs (Decidable (∀ x ∈ _, _))

namespace Wf

theorem subtree_live (wf : Wf s) :
    ∀ (fuel d : Nat), s.live d → ∀ x ∈ subtree s.children fuel d, s.live x := by
  intro fuel
  induction fuel with
  | zero =>
    intro d _ x member
    cases member
  | succ fuel ih =>
    intro d live x member
    simp only [subtree, mem_cons, mem_flatMap] at member
    rcases member with rfl | ⟨first, isChild, inside⟩
    · exact live
    · exact ih first (wf.childOk d first live isChild).1 x inside

theorem mem_subtree (wf : Wf s) (liveRoot : s.live r) (live : s.live x) :
    x ∈ subtree s.children s.next r ↔ x = r ∨ ∃ q, s.parent x = some q ∧
      q ∈ subtree s.children s.next r := by
  constructor
  · intro member
    rcases subtree_parent s.children s.next r x member with same | ⟨q, inside, below⟩
    · exact .inl same
    · exact .inr ⟨q, (wf.childOk q x (wf.subtree_live s.next r liveRoot q inside) below).2,
        inside⟩
  · rintro (rfl | ⟨q, parent, inside⟩)
    · obtain ⟨k, bound⟩ : ∃ k, s.next = k + 1 :=
        ⟨s.next - 1, by have := wf.bounded x liveRoot; omega⟩
      rw [bound]
      simp [subtree]
    · exact wf.subtree_closed s.next r liveRoot (by omega) q inside x
        (wf.parentOk x q live parent).2.2

/-- Unmounting a file system that holds no mount point. -/
theorem detach (wf : Wf s) (live : s.live target) (mounted : s.mounts target = some root)
    (plain : NoMountBelow s root) : Wf (s.detach target root) := by
  obtain ⟨liveRoot, top, notRoot, back⟩ := wf.mountsOk target root live mounted
  obtain ⟨isBlock, notFirst, ownRoot, _⟩ := wf.tops root liveRoot top notRoot
  have erased : ∀ b, b ∈ s.superBlocks.erase (s.sb root) ↔ b ≠ s.sb root ∧
      b ∈ s.superBlocks :=
    fun b => wf.blocks.mem_erase_iff
  have inside : ∀ x, s.live x → (x ∈ subtree s.children s.next root ↔
      x = root ∨ ∃ q, s.parent x = some q ∧ q ∈ subtree s.children s.next root) :=
    fun x => wf.mem_subtree liveRoot
  have unmounted : ∀ x ∈ subtree s.children s.next root, s.mounts x = none := plain
  have stays : ∀ x, (s.detach target root).live x ↔ s.live x ∧
      x ∉ subtree s.children s.next root := by
    intro x
    simp [Dcache.detach, prune]
  generalize subtree s.children s.next root = tree at *
  constructor
  · rw [stays]
    exact ⟨wf.rootLive, fun member => by
      have := (inside _ wf.rootLive).mp member
      have := wf.rootTop
      grind⟩
  · exact wf.rootTop
  · intro d here
    exact wf.bounded d ((stays d).mp here).1
  · intro d q here (parent : s.parent d = some q)
    rw [stays] at here ⊢
    obtain ⟨liveQ, older, listed⟩ := wf.parentOk d q here.1 parent
    have := inside d here.1
    exact ⟨⟨liveQ, by grind⟩, older, listed⟩
  · intro d c here below
    rw [stays] at here ⊢
    obtain ⟨liveC, parent⟩ := wf.childOk d c here.1 below
    have := inside c liveC
    exact ⟨⟨liveC, by grind⟩, parent⟩
  · intro d q here parent
    exact wf.inner d q ((stays d).mp here).1 parent
  · exact (erased 0).mpr ⟨notFirst.symm, wf.rootBlock⟩
  · exact wf.blocks.erase _
  · intro b member
    exact wf.blockBound b ((erased b).mp member).2
  · intro b member notZero
    obtain ⟨other, listed⟩ := (erased b).mp member
    obtain ⟨liveB, topB, own, notRootB⟩ := wf.roots b listed notZero
    refine ⟨(stays _).mpr ⟨liveB, ?_⟩, topB, own, notRootB⟩
    intro member
    have := (inside _ liveB).mp member
    grind
  · intro d here topD notRootD
    rw [stays] at here
    obtain ⟨member, other, own, t, on, liveT, older, forth⟩ := wf.tops d here.1 topD notRootD
    have apart : s.sb d ≠ s.sb root := by
      intro same
      have := inside root liveRoot
      grind
    refine ⟨(erased _).mpr ⟨apart, member⟩, other, own, t, on, (stays t).mpr ⟨liveT, ?_⟩,
      older, ?_⟩
    · intro bad
      have := unmounted t bad
      grind
    · have notTarget : t ≠ target := by
        rintro rfl
        have := inside root liveRoot
        grind
      simpa [Dcache.detach, prune, notTarget] using forth
  · intro d e here carries
    rw [stays] at here ⊢
    have notTarget : d ≠ target := by
      rintro rfl
      simp [Dcache.detach, prune] at carries
    have was : s.mounts d = some e := by simpa [Dcache.detach, prune, notTarget] using carries
    obtain ⟨liveE, topE, notRootE, backE⟩ := wf.mountsOk d e here.1 was
    refine ⟨⟨liveE, ?_⟩, topE, notRootE, backE⟩
    intro bad
    have := (inside e liveE).mp bad
    grind

theorem detectRoot (wf : Wf s) (path : List Char) : Wf (s.detectRoot B path) := by
  unfold Dcache.detectRoot
  split
  · obtain ⟨wf', _, _⟩ := wf.index (B := B) (path ++ "/.mcca.root".toList) none rfl
    generalize s.index B (path ++ "/.mcca.root".toList) none = found at *
    obtain ⟨result, mid⟩ := found
    cases result with
    | none => exact wf'
    | some _ => exact { wf' with }
  · exact wf

theorem mountFilesys (wf : Wf s) (fs : Fs) (path : List Char) (stateMade blockMade : Bool) :
    Wf (s.mountFilesys B fs path stateMade blockMade).2 := by
  unfold Dcache.mountFilesys
  split
  · exact wf
  obtain ⟨wf', _, live⟩ := wf.mountTarget (B := B) path
  generalize s.mountTarget B path = found at *
  obtain ⟨target, mid⟩ := found
  cases target with
  | none => exact wf'
  | some target =>
    dsimp only
    split
    · exact wf'
    · rename_i free
      simp only [not_or, Bool.not_eq_true, Option.isSome_eq_false_iff,
        Option.isNone_iff_eq_none] at free
      exact (wf'.attach fs (live target rfl) free.1).detectRoot path

theorem unmountTarget_live (wf : Wf s) (live : s.live d) : s.live (s.unmountTarget d) := by
  unfold unmountTarget
  split
  · cases on : s.mountedOn d with
    | none => exact live
    | some t =>
      cases parent : s.parent d with
      | none =>
        by_cases root : d = vfsRoot
        · subst root
          rw [wf.rootTop.2] at on
          cases on
        · obtain ⟨_, _, _, t', on', liveT, _⟩ := wf.tops d live parent root
          rw [on] at on'
          cases on'
          exact liveT
      | some p =>
        rw [wf.inner d p live parent] at on
        cases on
  · exact live

end Wf

/-- The components fit an entry's name; a longer one would be copied past the end of `d_name`. -/
def Short (path : List Char) : Prop := ∀ c ∈ components path, c.length < vfsMaxFilename

instance (path : List Char) : Decidable (Short path) := inferInstanceAs (Decidable (∀ c ∈ _, _))

/-- What an unmount of `path` would take away holds no mount point. -/
def UnmountsPlain (B : Backends Fs N) (path : List Char) (s : Dcache Fs N) : Prop :=
  ∀ target ∈ (s.index B path none).1,
    ∀ root ∈ (s.index B path none).2.mounts ((s.index B path none).2.unmountTarget target),
      NoMountBelow (s.index B path none).2 root

instance (B : Backends Fs N) (path : List Char) (s : Dcache Fs N) :
    Decidable (UnmountsPlain B path s) :=
  inferInstanceAs (Decidable (∀ target ∈ _, ∀ root ∈ _, _))

/-- Names fit, and no file system is unmounted that holds a mount point. -/
def Careful (B : Backends Fs N) (s : Dcache Fs N) : VfsEvent Fs → Prop
  | .lookup path _ => Short path
  | .create _ _ => True
  | .mount _ path _ _ => Short path
  | .unmount path => Short path ∧ UnmountsPlain B path s

instance (B : Backends Fs N) (s : Dcache Fs N) (e : VfsEvent Fs) : Decidable (Careful B s e) := by
  cases e <;> simp only [Careful] <;> infer_instance

namespace Wf

theorem unmount (wf : Wf s) (path : List Char) (plain : UnmountsPlain B path s) :
    Wf (s.unmount B path).2 := by
  unfold Dcache.unmount
  obtain ⟨wf', _, live⟩ := wf.index (B := B) path none rfl
  unfold UnmountsPlain at plain
  generalize s.index B path none = found at *
  obtain ⟨target, mid⟩ := found
  cases target with
  | none => exact wf'
  | some target =>
    dsimp only
    cases mounted : mid.mounts (mid.unmountTarget target) with
    | none => exact wf'
    | some root =>
      exact wf'.detach (wf'.unmountTarget_live (live target rfl)) mounted
        (plain target rfl root mounted)

theorem step (wf : Wf s) (careful : Careful B s e) (ran : e.exec B s = some s') : Wf s' := by
  cases e with
  | lookup path base =>
    obtain ⟨inUse, ⟨⟩⟩ := Option.ite_none_right_eq_some.mp ran
    exact (wf.index path base inUse).1
  | create path base =>
    obtain ⟨inUse, ⟨⟩⟩ := Option.ite_none_right_eq_some.mp ran
    exact (wf.create path base inUse).1
  | mount fs path stateMade blockMade =>
    cases ran
    exact wf.mountFilesys fs path stateMade blockMade
  | unmount path =>
    cases ran
    exact wf.unmount path careful.2

theorem rootOnly : Wf (rootOnly Fs N) := by
  constructor <;> simp [Vfs.rootOnly, vfsRoot]
  all_goals exact fun d here => of_decide_eq_true here

theorem initialized : Wf (initialized Fs N) := by
  unfold Vfs.initialized
  have start : Wf (Vfs.rootOnly Fs N) ∧ (Vfs.rootOnly Fs N).live vfsRoot :=
    ⟨rootOnly, by simp [Vfs.rootOnly]⟩
  generalize Vfs.rootOnly Fs N = s at start
  induction standardDirs generalizing s with
  | nil => exact start.1
  | cons name rest ih =>
    obtain ⟨wf, grows⟩ := start.1.alloc start.2 name 0 none
    exact ih _ ⟨wf, grows.live _ start.2⟩

end Wf

/-- Entries that a walk over child lists and mounts from the root meets. -/
inductive InTree (s : Dcache Fs N) : Nat → Prop where
  | root : InTree s vfsRoot
  | child {d c : Nat} : InTree s d → c ∈ s.children d → InTree s c
  | mounted {d r : Nat} : InTree s d → s.mounts d = some r → InTree s r

/-- Every entry in use is in the tree: its parent or its mount point is older. -/
theorem Wf.inTree (wf : Wf s) : ∀ d, s.live d → InTree s d := by
  intro d
  induction d using Nat.strong_induction_on with
  | _ d ih =>
    intro live
    cases parent : s.parent d with
    | some p =>
      obtain ⟨liveP, older, listed⟩ := wf.parentOk d p live parent
      exact .child (ih p older liveP) listed
    | none =>
      by_cases root : d = vfsRoot
      · rw [root]
        exact .root
      · obtain ⟨_, _, _, t, _, liveT, older, forth⟩ := wf.tops d live parent root
        exact .mounted (ih t older liveT) forth

/-- An entry carries a mount exactly when a mounted file system has it as its mount point. -/
theorem Wf.carries_iff (wf : Wf s) (live : s.live target) :
    (s.mounts target).isSome ↔
      ∃ b ∈ s.superBlocks, b ≠ 0 ∧ s.mountedOn (s.sRoot b) = some target := by
  constructor
  · intro carries
    obtain ⟨r, mounted⟩ := Option.isSome_iff_exists.mp carries
    obtain ⟨liveR, top, notRoot, on⟩ := wf.mountsOk target r live mounted
    obtain ⟨member, notZero, root, -⟩ := wf.tops r liveR top notRoot
    exact ⟨s.sb r, member, notZero, root.symm ▸ on⟩
  · rintro ⟨b, member, notZero, on⟩
    obtain ⟨liveRoot, top, -, notRoot⟩ := wf.roots b member notZero
    obtain ⟨-, -, -, t, on', -, -, forth⟩ := wf.tops _ liveRoot top notRoot
    rw [on, Option.some_inj] at on'
    rw [on', forth]
    rfl

/-- In every state reached, the root of each mounted file system has a mount point in the
tree that points back to it, and no two share one; a mount is refused exactly where the
entry its path leads to is the mount point of a file system already. -/
theorem mounts_stay_linked (B : Backends Fs N) {events : List (VfsEvent Fs)}
    (run : Run (Run.Guarded (Careful B) (fun s e => e.exec B s)) (initialized Fs N) events s) :
    (∀ b ∈ s.superBlocks, b ≠ 0 → s.live (s.sRoot b) ∧
      ∃ t, s.mountedOn (s.sRoot b) = some t ∧ s.live t ∧ InTree s t ∧
      s.mounts t = some (s.sRoot b)) ∧
    (∀ b ∈ s.superBlocks, ∀ b' ∈ s.superBlocks, b ≠ 0 → b' ≠ 0 →
      s.mountedOn (s.sRoot b) = s.mountedOn (s.sRoot b') → b = b') ∧
    (∀ fs path target, (s.mountTarget B path).1 = some target →
      ((s.mountFilesys B fs path true true).1 = false ↔
        ∃ b ∈ s.superBlocks, b ≠ 0 ∧ s.mountedOn (s.sRoot b) = some target)) := by
  have wf : Wf s := run.preserves (fun _ _ _ wf step => wf.step step.1 step.2) Wf.initialized
  have linked : ∀ b ∈ s.superBlocks, b ≠ 0 → s.live (s.sRoot b) ∧
      ∃ t, s.mountedOn (s.sRoot b) = some t ∧ s.live t ∧ InTree s t ∧
          s.mounts t = some (s.sRoot b) := by
    intro b member notZero
    obtain ⟨live, top, _, notRoot⟩ := wf.roots b member notZero
    obtain ⟨_, _, _, t, on, liveT, _, forth⟩ := wf.tops _ live top notRoot
    exact ⟨live, t, on, liveT, wf.inTree t liveT, forth⟩
  refine ⟨linked, ?_, ?_⟩
  · intro b member b' member' notZero notZero' same
    obtain ⟨_, t, on, _, _, forth⟩ := linked b member notZero
    obtain ⟨_, t', on', _, _, forth'⟩ := linked b' member' notZero'
    have roots : s.sRoot b = s.sRoot b' := by grind
    have own := (wf.roots b member notZero).2.2.1
    have own' := (wf.roots b' member' notZero').2.2.1
    rw [← own, ← own', roots]
  · intro fs path target found
    obtain ⟨wf', grows, live⟩ := wf.mountTarget (B := B) path
    have carries := wf'.carries_iff (live target found)
    have refused : (s.mountFilesys B fs path true true).1 = false ↔
        ((s.mountTarget B path).2.mounts target).isSome := by
      unfold mountFilesys
      generalize s.mountTarget B path = at_ at *
      obtain ⟨result, mid⟩ := at_
      cases found
      simp only [Bool.true_eq_false, if_false, or_false]
      split <;> simp_all
    -- looking the path up left the mounted file systems as they were
    rw [refused, carries, grows.superBlocks, grows.sRoot]
    refine exists_congr fun b => and_congr_right fun member => and_congr_right fun notZero => ?_
    rw [(grows.same _ (wf.roots b member notZero).1).2.2.2.2.2]

/-- Two file systems that hold one directory `x` each. -/
def twoDisks : Backends Bool Nat where
  root _ := 0
  child _ node name := if node = 0 ∧ name = ['x'] then some 1 else none

theorem mounts_stay_linked_nested :
    ∃ s, Run (Run.Guarded (Careful twoDisks) (fun s e => e.exec twoDisks s))
      (initialized Bool Nat)
        [.mount false "/m".toList true true, .mount true "/m/x".toList true true,
          .lookup "/m/x/x".toList none] s ∧
      ∃ t, s.mountedOn (s.sRoot 2) = some t ∧ s.live t ∧ InTree s t ∧
      s.mounts t = some (s.sRoot 2) := by
  have reached : ∃ s, Run (Run.Guarded (Careful twoDisks) (fun s e => e.exec twoDisks s))
    (initialized Bool Nat)
      [.mount false "/m".toList true true, .mount true "/m/x".toList true true,
      .lookup "/m/x/x".toList none] s ∧
      s.superBlocks = [2, 1, 0] :=
    Run.exists_guarded (by decide +kernel)
  obtain ⟨s, run, blocks⟩ := reached
  exact ⟨s, run, ((mounts_stay_linked twoDisks run).1 2 (by simp [blocks]) (by decide)).2⟩

/-- A mount on a path that is a mount point is taken, on the root mounted there; and a file
system whose mount point was pruned with another one stays in the list, mounted nowhere. -/
theorem mounts_left_dangling :
    (∃ s, Run (fun s e s' => VfsEvent.exec twoDisks s e = some s') (initialized Bool Nat)
        [.mount false "/m".toList true true] s ∧
        ((s.lookupDentry vfsRoot ['m']).bind s.mounts).isSome ∧
      (s.mountFilesys twoDisks true "/m".toList true true).1 = true) ∧
    (∃ s, Run (fun s e s' => VfsEvent.exec twoDisks s e = some s') (initialized Bool Nat)
        [.mount false "/m".toList true true, .mount true "/m/x".toList true true,
          .unmount "/m".toList] s ∧
      2 ∈ s.superBlocks ∧ s.live (s.sRoot 2) ∧
      (s.mountedOn (s.sRoot 2)).any (fun t => !s.live t)) := by
  refine ⟨Run.exists_decide ?_, Run.exists_decide ?_⟩ <;> decide +kernel

end Mecocoa.Vfs
