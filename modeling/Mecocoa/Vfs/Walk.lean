import Mecocoa.Vfs.Mounts

/-! # The tree of names behind the cache

What a path means, without the cache: a place is a path in a file system and the places of
the mount points that lead to it.  The cache agrees with the file systems when every entry
holds what its file system has under that name.
-/

namespace Mecocoa.Vfs

open Dcache Lib List
open Function (update_apply)

variable {Fs N : Type} {B : Backends Fs N} {s s' : Dcache Fs N}

/-- The path inside the file system one is in, then those of the mount points behind it. -/
abbrev Place := List (List Name)

/-- The entries of the root file system, and which file systems are mounted where. -/
@[ext] structure World (Fs : Type) where
  has : List Name → Bool
  mount : Place → Option Fs

/-- What a lookup ends at: a directory of the root file system or what a backend has there. -/
inductive Ident (Fs N : Type) where
  | dir (path : List Name)
  | node (fs : Fs) (node : Option N)
  deriving DecidableEq

/-- What a file system has at a path below one of its nodes. -/
def Backends.resolve (B : Backends Fs N) (fs : Fs) (node : N) (path : List Name) : Option N :=
  path.foldlM (B.child fs) node

namespace World

variable (W : World Fs) (B : Backends Fs N)

def present : Place → Bool
  | [] => false
  | [path] => W.has path
  | path :: outer => (W.mount outer).any fun fs => (B.resolve fs (B.root fs) path).isSome

def cross (place : Place) : Place := if (W.mount place).isSome then [] :: place else place

def below (place : Place) (name : Name) : Place :=
  match place with
  | [] => []
  | path :: outer => (path ++ [name]) :: outer

/-- Where `..` leads: the root of a mounted file system has the parent of its mount point. -/
def above : Place → Place
  | [] => []
  | [path] => [path.dropLast]
  | path :: outer :: rest => if path = [] then outer.dropLast :: rest
    else path.dropLast :: outer :: rest

/-- One component of a path. -/
def step (place : Place) (component : Name) : Option Place :=
  if component = ['.'] then some place
  else if component = ['.', '.'] then some (above place)
  else if W.present B (below place component) then some (W.cross (below place component))
  else none

/-- The components one by one, with every mount point crossed. -/
def walk (path : List Char) : Option Place := (components path).foldlM (W.step B) (W.cross [[]])

def identity : Place → Ident Fs N
  | [] => .dir []
  | [path] => .dir path
  | path :: outer =>
    match W.mount outer with
    | some fs => .node fs (B.resolve fs (B.root fs) path)
    | none => .dir path

end World

namespace Dcache

/-- The entry cached for a path below `root`. -/
def walkDown (s : Dcache Fs N) (root : Nat) : List Name → Option Nat
  | [] => some root
  | name :: rest => (s.lookupDentry root name).bind fun d => walkDown s d rest

/-- The entry cached for a place. -/
def find (s : Dcache Fs N) : Place → Option Nat
  | [] => none
  | [path] => s.walkDown vfsRoot path
  | path :: outer => ((find s outer).bind s.mounts).bind fun root => s.walkDown root path

def mountedFs (s : Dcache Fs N) (d : Nat) : Option Fs :=
  (s.mounts d).bind fun r =>
    match s.driver (s.sb r) with
    | .backend fs => some fs
    | .rootfs => none

/-- The file systems and mounts of a state of the cache. -/
def world (s : Dcache Fs N) : World Fs where
  has path := (s.find [path]).isSome
  mount place := (s.find place).bind s.mountedFs

/-- The path of an entry below the root of its file system. -/
def pathOf (s : Dcache Fs N) (d : Nat) : List Name := (s.namesUp (s.mountRoot d d) d d).reverse

def identity (s : Dcache Fs N) (d : Nat) : Ident Fs N :=
  match s.driver (s.sb d) with
  | .rootfs => .dir (s.pathOf d)
  | .backend fs => .node fs (s.node d)

/-- The answer of a lookup. -/
def answer (B : Backends Fs N) (s : Dcache Fs N) (path : List Char) : Option (Ident Fs N) :=
  (s.index B path none).1.map (s.index B path none).2.identity

end Dcache

/-- Every entry holds what its file system has under its name, and no root carries a mount. -/
structure Agrees (B : Backends Fs N) (s : Dcache Fs N) : Prop extends Wf s where
  rootDriver : s.driver 0 = .rootfs ∧ s.sb vfsRoot = 0
  drivers : ∀ b ∈ s.superBlocks, b ≠ 0 → ∃ fs, s.driver b = .backend fs
  owned : ∀ d, s.live d → s.sb d ∈ s.superBlocks
  unique : ∀ d, s.live d → ∀ c ∈ s.children d, ∀ c' ∈ s.children d,
    s.name c = s.name c' → c = c'
  inherits : ∀ c d, s.live c → s.parent c = some d → s.sb c = s.sb d
  rootNode : ∀ d fs, s.live d → s.parent d = none → s.driver (s.sb d) = .backend fs →
    s.node d = some (B.root fs)
  childNode : ∀ c d fs, s.live c → s.parent c = some d → s.driver (s.sb d) = .backend fs →
    s.node c = (s.node d).bind fun node => B.child fs node (s.name c)
  nodeIn : ∀ d fs, s.live d → s.driver (s.sb d) = .backend fs → (s.node d).isSome
  unstacked : ∀ d, s.live d → s.parent d = none → s.mounts d = none

namespace Agrees

/-- Adding an entry a file system has, or a directory of the root file system. -/
theorem alloc (agrees : Agrees B s) (live : s.live d) {name} (missed : s.lookupDentry d name = none)
    {node} (held : ∀ fs, s.driver (s.sb d) = .backend fs → node.isSome ∧
      node = (s.node d).bind fun above => B.child fs above name) :
    Agrees B (s.allocDentry (some d) name (s.sb d) node) := by
  have dead : s.live s.next ≠ true := fun here => agrees.live_ne_next here rfl
  have notNext := agrees.live_ne_next live
  have unnamed : ∀ c ∈ s.children d, s.name c ≠ name := by
    intro c member named
    have := find?_eq_none.mp missed c member
    simp [named] at this
  have childLive : ∀ q c, s.live q → c ∈ s.children q → c ≠ s.next := by
    intro q c liveQ member
    exact agrees.live_ne_next (agrees.childOk q c liveQ member).1
  refine ⟨(agrees.toWf.alloc live name (s.sb d) node).1, ?_, agrees.drivers, ?_, ?_, ?_, ?_, ?_,
    ?_, ?_⟩
  · have := agrees.live_ne_next agrees.rootLive
    have := agrees.rootDriver
    simp only [allocDentry, update_apply]
    grind
  · intro q liveQ
    have := agrees.owned q
    have := agrees.owned d live
    simp only [allocDentry, update_apply] at *
    grind
  · intro q liveQ c member c' member' same
    have := agrees.unique q
    have := childLive q
    simp only [allocDentry, update_apply] at *
    grind
  · intro c q liveC parent
    have := agrees.inherits c q
    have := agrees.parentOk c q
    simp only [allocDentry, update_apply] at *
    grind
  · intro q fs liveQ top driver
    have := agrees.rootNode q fs
    simp only [allocDentry, update_apply] at *
    grind
  · intro c q fs liveC parent driver
    have := agrees.childNode c q fs
    have := agrees.parentOk c q
    have := agrees.inherits c q
    have := held fs
    simp only [allocDentry, update_apply] at *
    grind
  · intro q fs liveQ driver
    have := agrees.nodeIn q fs
    have := held fs
    simp only [allocDentry, update_apply] at *
    grind
  · intro q liveQ top
    have := agrees.unstacked q
    simp only [allocDentry, update_apply] at *
    grind

end Agrees

/-- The search has reached `ctx.current`, which holds `node` of `fs`. -/
structure Reached (B : Backends Fs N) (fs : Fs) (node : N) (ctx : Ctx) (s : Dcache Fs N) :
    Prop where
  agrees : Agrees B s
  live : s.live ctx.current
  sb : ctx.sb = s.sb ctx.current
  driver : s.driver (s.sb ctx.current) = .backend fs
  node : s.node ctx.current = some node

namespace Reached

variable {node below : N} {name : Name}

theorem hit (reached : Reached B fs node ctx s) (held : B.child fs node name = some below)
    (found : s.lookupDentry ctx.current name = some c) : Reached B fs below ⟨c, ctx.sb⟩ s := by
  obtain ⟨liveC, parent, named, _⟩ := reached.agrees.lookup_live reached.live found
  have inherits := reached.agrees.inherits c ctx.current liveC parent
  refine ⟨reached.agrees, liveC, reached.sb.trans inherits.symm, ?_, ?_⟩
  · rw [inherits]
    exact reached.driver
  · rw [reached.agrees.childNode c ctx.current fs liveC parent reached.driver, reached.node, named]
    exact held

theorem miss (reached : Reached B fs node ctx s) (held : B.child fs node name = some below)
    (missed : s.lookupDentry ctx.current name = none) :
    Reached B fs below ⟨s.next, ctx.sb⟩
      (s.allocDentry (some ctx.current) name ctx.sb (some below)) := by
  have notNext := reached.agrees.live_ne_next reached.live
  constructor
  · rw [reached.sb]
    apply reached.agrees.alloc reached.live missed
    intro fs' driver
    rw [reached.driver] at driver
    cases driver
    simp [reached.node, held]
  · simp [allocDentry]
  · simp [allocDentry]
  · simp [allocDentry, reached.sb, reached.driver]
  · simp [allocDentry]

end Reached

/-- A cache that has grown by entries of mounted file systems only. -/
structure Behind (s s' : Dcache Fs N) : Prop extends Grows s s' where
  hidden : ∀ d, s'.live d → s.live d ∨ ∃ fs, s'.driver (s'.sb d) = .backend fs

theorem Behind.refl (s : Dcache Fs N) : Behind s s := ⟨.refl s, fun _ here => .inl here⟩

theorem Behind.trans (first : Behind s s') (second : Behind s' s'') : Behind s s'' := by
  refine ⟨first.toGrows.trans second.toGrows, ?_⟩
  intro d here
  rcases second.hidden d here with mid | behind
  · rcases first.hidden d mid with old | ⟨fs, driver⟩
    · exact .inl old
    · right
      refine ⟨fs, ?_⟩
      rw [second.driver, (second.same d mid).2.2.1]
      exact driver
  · exact .inr behind

namespace Agrees

theorem search {node} (path : List Name) (reached : Reached B fs node ctx s) :
    Agrees B (s.search B fs path node ctx).2 ∧ Behind s (s.search B fs path node ctx).2 := by
  induction path generalizing s ctx node with
  | nil => exact ⟨reached.agrees, .refl s⟩
  | cons name rest ih =>
    unfold Dcache.search
    cases held : B.child fs node name with
    | none => exact ⟨reached.agrees, .refl s⟩
    | some below =>
      dsimp only
      unfold onSearchSegment
      cases found : s.lookupDentry ctx.current name with
      | some c =>
        dsimp only
        cases s.mounts c with
        | none => exact ih (reached.hit held found)
        | some r => exact ⟨reached.agrees, .refl s⟩
      | none =>
        have unmounted : (s.allocDentry (some ctx.current) name ctx.sb (some below)).mounts s.next =
            none := by
          simp [allocDentry]
        have first : Behind s (s.allocDentry (some ctx.current) name ctx.sb (some below)) := by
          refine ⟨(reached.agrees.toWf.alloc reached.live name ctx.sb (some below)).2, ?_⟩
          intro d here
          by_cases new : d = s.next
          · exact .inr ⟨fs, by simp [allocDentry, new, reached.sb, reached.driver]⟩
          · exact .inl (by simpa [allocDentry, new] using here)
        obtain ⟨agrees, later⟩ := ih (reached.miss held found)
        dsimp only
        rw [unmounted]
        exact ⟨agrees, first.trans later⟩

end Agrees

theorem Wf.mountRoot_top (wf : Wf s) :
    ∀ (fuel d : Nat), s.live d → d ≤ fuel → s.parent (s.mountRoot fuel d) = none := by
  intro fuel
  induction fuel with
  | zero =>
    intro d live bound
    unfold mountRoot
    cases parent : s.parent d with
    | none => rfl
    | some p =>
      have := (wf.parentOk d p live parent).2.1
      omega
  | succ fuel ih =>
    intro d live bound
    unfold mountRoot
    cases parent : s.parent d with
    | none => exact parent
    | some p =>
      obtain ⟨liveP, older, _⟩ := wf.parentOk d p live parent
      exact ih p liveP (by omega)

namespace Agrees

variable (agrees : Agrees B s)

include agrees

theorem mountRoot_sb (live : s.live d) (fuel : Nat) : s.sb (s.mountRoot fuel d) = s.sb d := by
  induction fuel generalizing d with
  | zero => rfl
  | succ fuel ih =>
    unfold mountRoot
    cases parent : s.parent d with
    | none => rfl
    | some p =>
      dsimp only
      rw [ih (agrees.parentOk d p live parent).1, agrees.inherits d p live parent]

/-- A delegated search starts at the root of the file system. -/
theorem reached_root (live : s.live d) (driver : s.driver (s.sb d) = .backend fs) :
    Reached B fs (B.root fs) ⟨s.mountRoot d d, s.sb d⟩ s := by
  have sameSb := agrees.mountRoot_sb live d
  have liveRoot := agrees.mountRoot_live live d
  refine ⟨agrees, liveRoot, sameSb.symm, by rw [sameSb]; exact driver, ?_⟩
  exact agrees.rootNode _ fs liveRoot (agrees.mountRoot_top d d live le_rfl)
    (by rw [sameSb]; exact driver)

theorem delegate (live : s.live d) (path : List Name) :
    Agrees B (s.delegate B d path).2 ∧ Behind s (s.delegate B d path).2 := by
  unfold Dcache.delegate
  cases driver : s.driver (s.sb d) with
  | rootfs => exact ⟨agrees, .refl s⟩
  | backend fs =>
    dsimp only
    have searched :=
      Agrees.search (s.innerPath (s.mountRoot d d) d ++ path) (agrees.reached_root live driver)
    generalize s.search B fs _ _ _ = found at *
    obtain ⟨ctx, mid⟩ := found
    cases ctx <;> exact searched

theorem indexFrom (path : List Name) (live : s.live d) :
    Agrees B (s.indexFrom B path d).2 ∧ Behind s (s.indexFrom B path d).2 := by
  induction path generalizing d with
  | nil => exact ⟨agrees, .refl s⟩
  | cons component rest ih =>
    unfold Dcache.indexFrom
    dsimp only
    split
    · exact ih live
    split
    · exact ih (agrees.up_live live)
    cases found : s.lookupDentry d (component.take (vfsMaxFilename - 1)) with
    | none => exact agrees.delegate live (component :: rest)
    | some c => exact ih (agrees.cross_live (agrees.lookup_live live found).1)

theorem index (path : List Char) (base : Option Nat) (inUse : base.all s.live) :
    Agrees B (s.index B path base).2 ∧ Behind s (s.index B path base).2 := by
  unfold Dcache.index
  split
  · exact ⟨agrees, .refl s⟩
  · exact agrees.indexFrom (components path) (agrees.start_live path inUse)

omit agrees

end Agrees

/-- New entries are made in the root file system only. -/
def CreatesInRoot (s : Dcache Fs N) : List Name → Nat → Prop
  | [], _ => True
  | component :: rest, d =>
    match s.lookupDentry d (component.take (vfsMaxFilename - 1)) with
    | some c => CreatesInRoot s rest (s.cross c)
    | none => s.driver (s.sb d) = .rootfs

instance CreatesInRoot.decide [DecidableEq Fs] (s : Dcache Fs N) :
    (path : List Name) → DecidablePred (CreatesInRoot s path)
  | [], _ => isTrue trivial
  | _ :: rest, _ => by
    have := CreatesInRoot.decide s rest
    unfold CreatesInRoot
    split <;> infer_instance

theorem lookup_childless {name} (empty : s.children d = []) : s.lookupDentry d name = none := by
  simp [lookupDentry, empty]

namespace Agrees

variable (agrees : Agrees B s)

include agrees

theorem createFrom (path : List Name) (live : s.live d) (inRoot : CreatesInRoot s path d) :
    Agrees B (s.createFrom path d).2 := by
  induction path generalizing s d with
  | nil => exact agrees
  | cons component rest ih =>
    unfold Dcache.createFrom
    unfold CreatesInRoot at inRoot
    dsimp only
    cases found : s.lookupDentry d (component.take (vfsMaxFilename - 1)) with
    | some c =>
      rw [found] at inRoot
      exact ih agrees (agrees.cross_live (agrees.lookup_live live found).1) inRoot
    | none =>
      rw [found] at inRoot
      have agrees' :
          Agrees B
            (s.allocDentry (some d) (component.take (vfsMaxFilename - 1)) (s.sb d) none) := by
        apply agrees.alloc live found
        intro fs driver
        rw [inRoot] at driver
        cases driver
      apply ih agrees'
      · simp [allocDentry]
      · have notNext := agrees.live_ne_next live
        cases rest with
        | nil => trivial
        | cons next rest =>
          unfold CreatesInRoot
          rw [lookup_childless (by simp [allocDentry, notNext.symm])]
          simpa [allocDentry] using inRoot

theorem create (path : List Char) (inUse : base.all s.live)
    (inRoot : CreatesInRoot s (components path) (startOf path base)) :
    Agrees B (s.create path base).2 := by
  unfold Dcache.create
  split
  · exact agrees
  · exact agrees.createFrom (components path) (agrees.start_live path inUse) inRoot

/-- Mounting on an entry that is not a root. -/
theorem attach (fs : Fs) (live : s.live target) (free : s.mounts target = none)
    (inner : (s.parent target).isSome) : Agrees B (s.attach B fs target) := by
  have dead : s.live s.next ≠ true := fun here => agrees.live_ne_next here rfl
  have known : ∀ d, s.live d → s.sb d ≠ s.nextBlock := by
    intro d liveD same
    have := agrees.blockBound _ (agrees.owned d liveD)
    omega
  have notZero : s.nextBlock ≠ 0 := by
    have := agrees.blockBound 0 agrees.rootBlock
    omega
  refine ⟨agrees.toWf.attach fs live free, ?_, ?_, ?_, ?_, ?_, ?_, ?_, ?_, ?_⟩
  · have := agrees.live_ne_next agrees.rootLive
    have := agrees.rootDriver
    simp only [Dcache.attach, allocDentry, update_apply]
    grind
  · intro b member other
    have := agrees.drivers b
    by_cases new : b = s.nextBlock
    · exact ⟨fs, by simp [Dcache.attach, new]⟩
    · simp only [Dcache.attach, mem_cons, new, false_or] at member
      obtain ⟨held, driver⟩ := this member other
      exact ⟨held, by simp [Dcache.attach, new, driver]⟩
  · intro d here
    have := agrees.owned d
    simp only [Dcache.attach, allocDentry, update_apply, mem_cons] at *
    grind
  · intro d here c member c' member'
    have := agrees.unique d
    have := agrees.childOk d
    simp only [Dcache.attach, allocDentry, update_apply] at *
    grind
  · intro c d here parent
    have := agrees.inherits c d
    have := agrees.parentOk c d
    simp only [Dcache.attach, allocDentry, update_apply] at *
    grind
  · intro d held here top driver
    have := agrees.rootNode d held
    have := known d
    simp only [Dcache.attach, allocDentry, update_apply] at *
    grind
  · intro c d held here parent driver
    have := agrees.childNode c d held
    have := agrees.parentOk c d
    have := known d
    simp only [Dcache.attach, allocDentry, update_apply] at *
    grind
  · intro d held here driver
    have := agrees.nodeIn d held
    have := known d
    simp only [Dcache.attach, allocDentry, update_apply] at *
    grind
  · intro d here top
    have := agrees.unstacked d
    simp only [Dcache.attach, allocDentry, update_apply] at *
    grind

/-- The entries of a file system are those of the tree below its root. -/
theorem mem_subtree_of_sb (liveRoot : s.live r) (top : s.parent r = none)
    (notRoot : r ≠ vfsRoot) :
    ∀ d, s.live d → s.sb d = s.sb r → d ∈ subtree s.children s.next r := by
  obtain ⟨_, notFirst, own, _⟩ := agrees.tops r liveRoot top notRoot
  intro d
  induction d using Nat.strong_induction_on with
  | _ d ih =>
    intro live same
    rw [agrees.mem_subtree liveRoot live]
    cases parent : s.parent d with
    | some p =>
      obtain ⟨liveP, older, _⟩ := agrees.parentOk d p live parent
      exact .inr ⟨p, rfl, ih p older liveP (by rw [← same, agrees.inherits d p live parent])⟩
    | none =>
      left
      by_cases root : d = vfsRoot
      · rw [root, agrees.rootDriver.2] at same
        exact absurd same.symm notFirst
      · rw [← (agrees.tops d live parent root).2.2.1, same, own]

theorem detach (live : s.live target) (mounted : s.mounts target = some root)
    (plain : NoMountBelow s root) : Agrees B (s.detach target root) := by
  obtain ⟨liveRoot, top, notRoot, _⟩ := agrees.mountsOk target root live mounted
  have stays : ∀ x, (s.detach target root).live x → s.live x ∧
      x ∉ subtree s.children s.next root := by
    intro x here
    simpa [Dcache.detach, prune] using here
  refine ⟨agrees.toWf.detach live mounted plain, agrees.rootDriver, ?_, ?_, ?_, ?_, ?_, ?_, ?_,
    ?_⟩
  · intro b member other
    exact agrees.drivers b (mem_of_mem_erase member) other
  · intro d here
    obtain ⟨was, outside⟩ := stays d here
    refine (mem_erase_of_ne ?_).mpr (agrees.owned d was)
    intro same
    exact outside (agrees.mem_subtree_of_sb liveRoot top notRoot d was same)
  · intro d here
    exact agrees.unique d (stays d here).1
  · intro c d here
    exact agrees.inherits c d (stays c here).1
  · intro d fs here
    exact agrees.rootNode d fs (stays d here).1
  · intro c d fs here
    exact agrees.childNode c d fs (stays c here).1
  · intro d fs here
    exact agrees.nodeIn d fs (stays d here).1
  · intro d here topD
    have := agrees.unstacked d (stays d here).1 topD
    simp only [Dcache.detach, prune, update_apply]
    grind

omit agrees

end Agrees

/-- A mount goes on an entry that is not a root; if one is made, it is in the root file system. -/
def MountsPlain (B : Backends Fs N) (path : List Char) (s : Dcache Fs N) : Prop :=
  ((s.index B path none).1 = none →
  CreatesInRoot (s.index B path none).2 (components path) (startOf path none)) ∧
  ∀ target ∈ (s.mountTarget B path).1, ((s.mountTarget B path).2.parent target).isSome

instance [DecidableEq Fs] (B : Backends Fs N) (path : List Char) (s : Dcache Fs N) :
    Decidable (MountsPlain B path s) :=
  haveI : Decidable ((s.index B path none).1 = none) := inferInstance
  inferInstanceAs (Decidable ((_ → _) ∧ (∀ target ∈ _, _)))

/-- Names fit, entries are made in the root file system only, and mounts are neither put on
a root nor taken from under another. -/
def Orderly (B : Backends Fs N) (s : Dcache Fs N) : VfsEvent Fs → Prop
  | .lookup path _ => Short path
  | .create path base => CreatesInRoot s (components path) (startOf path base)
  | .mount _ path _ _ => Short path ∧ MountsPlain B path s
  | .unmount path => Short path ∧ UnmountsPlain B path s

instance [DecidableEq Fs] (B : Backends Fs N) (s : Dcache Fs N) : DecidablePred (Orderly B s)
  | .lookup _ _ | .create _ _ | .mount _ _ _ _ | .unmount _ => by
    dsimp only [Orderly]
    infer_instance

namespace Agrees

variable (agrees : Agrees B s)

include agrees

theorem mountTarget (path : List Char) (plain : MountsPlain B path s) :
    Agrees B (s.mountTarget B path).2 := by
  have inRoot := plain.1
  unfold Dcache.mountTarget
  have agrees' := (agrees.index path none rfl).1
  generalize s.index B path none = found at *
  obtain ⟨target, mid⟩ := found
  cases target with
  | some target => exact agrees'
  | none => exact agrees'.create path rfl (inRoot rfl)

theorem detectRoot (path : List Char) : Agrees B (s.detectRoot B path) := by
  unfold Dcache.detectRoot
  split
  · have agrees' := (agrees.index (path ++ "/.mcca.root".toList) none rfl).1
    generalize s.index B (path ++ "/.mcca.root".toList) none = found at *
    obtain ⟨result, mid⟩ := found
    cases result with
    | none => exact agrees'
    | some _ => exact { agrees' with toWf := { agrees'.toWf with } }
  · exact agrees

theorem mountFilesys (fs : Fs) (path : List Char) (stateMade blockMade : Bool)
    (plain : MountsPlain B path s) : Agrees B (s.mountFilesys B fs path stateMade blockMade).2 := by
  unfold Dcache.mountFilesys
  split
  · exact agrees
  have agrees' := agrees.mountTarget path plain
  have live := (agrees.toWf.mountTarget (B := B) path).2.2
  have inner := plain.2
  generalize s.mountTarget B path = found at *
  obtain ⟨target, mid⟩ := found
  cases target with
  | none => exact agrees'
  | some target =>
    dsimp only
    split
    · exact agrees'
    · rename_i free
      simp only [not_or, Bool.not_eq_true, Option.isSome_eq_false_iff,
        Option.isNone_iff_eq_none] at free
      exact (agrees'.attach fs (live target rfl) free.1 (inner target rfl)).detectRoot path

theorem unmount (path : List Char) (plain : UnmountsPlain B path s) :
    Agrees B (s.unmount B path).2 := by
  unfold Dcache.unmount
  have agrees' := (agrees.index path none rfl).1
  have live := (agrees.toWf.index (B := B) path none rfl).2.2
  unfold UnmountsPlain at plain
  generalize s.index B path none = found at *
  obtain ⟨target, mid⟩ := found
  cases target with
  | none => exact agrees'
  | some target =>
    dsimp only
    cases mounted : mid.mounts (mid.unmountTarget target) with
    | none => exact agrees'
    | some root =>
      exact agrees'.detach (agrees'.unmountTarget_live (live target rfl)) mounted
        (plain target rfl root mounted)

theorem step (orderly : Orderly B s e) (ran : e.exec B s = some s') : Agrees B s' := by
  cases e with
  | lookup path base =>
    obtain ⟨inUse, ⟨⟩⟩ := Option.ite_none_right_eq_some.mp ran
    exact (agrees.index path base inUse).1
  | create path base =>
    obtain ⟨inUse, ⟨⟩⟩ := Option.ite_none_right_eq_some.mp ran
    exact agrees.create path inUse orderly
  | mount fs path stateMade blockMade =>
    cases ran
    exact agrees.mountFilesys fs path stateMade blockMade orderly.2
  | unmount path =>
    cases ran
    exact agrees.unmount path orderly.2

omit agrees

theorem rootOnly : Agrees B (rootOnly Fs N) := by
  refine ⟨Wf.rootOnly, ?_, ?_, ?_, ?_, ?_, ?_, ?_, ?_, ?_⟩ <;> simp [Vfs.rootOnly, vfsRoot]

theorem makeDirs (names : List Name) (agrees : Agrees B s)
    (fresh : ∀ name ∈ names, s.lookupDentry vfsRoot name = none) (distinct : names.Nodup) :
    Agrees B (names.foldl (fun s name => s.allocDentry (some vfsRoot) name 0 none) s) := by
  induction names generalizing s with
  | nil => exact agrees
  | cons name rest ih =>
    obtain ⟨notIn, distinct⟩ := nodup_cons.mp distinct
    have made : Agrees B (s.allocDentry (some vfsRoot) name (s.sb vfsRoot) none) := by
      apply agrees.alloc agrees.rootLive (fresh name (by simp))
      intro fs driver
      rw [agrees.rootDriver.2, agrees.rootDriver.1] at driver
      cases driver
    rw [agrees.rootDriver.2] at made
    apply ih made _ distinct
    intro other member
    have apart : name ≠ other := fun same => notIn (same ▸ member)
    have notNext := agrees.live_ne_next agrees.rootLive
    have missed := fresh other (by simp [member])
    simp only [lookupDentry, find?_eq_none, decide_eq_true_eq] at missed ⊢
    intro c child
    have below := agrees.childOk vfsRoot c agrees.rootLive
    have := missed c
    have := agrees.live_ne_next (d := c)
    simp only [allocDentry, update_apply] at child ⊢
    grind

theorem initialized : Agrees B (initialized Fs N) := by
  apply makeDirs standardDirs rootOnly
  · intro name _
    rfl
  · decide

end Agrees

end Mecocoa.Vfs
