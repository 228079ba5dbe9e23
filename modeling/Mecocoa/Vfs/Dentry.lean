import Mecocoa.Lib.Run

/-! # The directory entry cache, path lookup and mounts

`_Index_unlocked` with the delegation to a file system's own search, `_Create_unlocked`,
`MountFilesys` and `Unmount`.  Directory entries and superblocks are numbered in the order
they are allocated; a freed number is not used again.
-/

namespace Mecocoa.Vfs

open Function (update)

abbrev Name := List Char

def vfsMaxFilename : Nat := 64

/-- The file systems that can be mounted: their root and what a directory holds. -/
structure Backends (Fs N : Type) where
  root : Fs → N
  child : Fs → N → Name → Option N

inductive Driver (Fs : Type) where
  /-- The memory file system of the root, which has no content but its entries. -/
  | rootfs
  | backend (fs : Fs)
  deriving DecidableEq

structure Dcache (Fs N : Type) where
  live : Nat → Bool
  /-- The next entry to be allocated. -/
  next : Nat
  parent : Nat → Option Nat
  /-- `d_first_child` and the `d_next_sibling` links behind it. -/
  children : Nat → List Nat
  name : Nat → Name
  /-- `d_inode->i_sb`. -/
  sb : Nat → Nat
  /-- `d_inode->internal_handler`, where a backend gave it. -/
  node : Nat → Option N
  mounts : Nat → Option Nat
  mountedOn : Nat → Option Nat
  /-- The list of superblocks, newest first. -/
  superBlocks : List Nat
  nextBlock : Nat
  driver : Nat → Driver Fs
  sRoot : Nat → Nat
  /-- `system_virtual_root_path`. -/
  virtualRoot : Option (List Char)

/-- `vfs_root`, the first entry; its superblock is the first one. -/
def vfsRoot : Nat := 0

variable {Fs N : Type}

namespace Dcache

def lookupDentry (s : Dcache Fs N) (dir : Nat) (name : Name) : Option Nat :=
  (s.children dir).find? fun child => s.name child = name

/-- `alloc_dentry`, with the inode the callers set: the new entry is `s.next`. -/
def allocDentry (parent : Option Nat) (name : Name) (sb : Nat) (node : Option N) (s : Dcache Fs N) :
    Dcache Fs N :=
  { s with
    live := update s.live s.next true
    next := s.next + 1
    parent := update s.parent s.next parent
    children :=
      match parent with
      | some p => update (update s.children s.next []) p (s.children p ++ [s.next])
      | none => update s.children s.next []
    name := update s.name s.next name
    sb := update s.sb s.next sb
    node := update s.node s.next node
    mounts := update s.mounts s.next none
    mountedOn := update s.mountedOn s.next none }

/-- The root mounted on an entry, or the entry. -/
def cross (s : Dcache Fs N) (d : Nat) : Nat := (s.mounts d).getD d

/-- Where `..` leads. -/
def up (s : Dcache Fs N) (d : Nat) : Nat :=
  match s.parent d with
  | some p => p
  | none =>
    match s.mountedOn d with
    | some anchor => (s.parent anchor).getD anchor
    | none => d

/-- `vfs_lookup_ctx`. -/
structure Ctx where
  current : Nat
  sb : Nat

/-- `vfs_on_search_segment`; the answer is whether the search goes on. -/
def onSearchSegment (node : N) (name : Name) (ctx : Ctx) (s : Dcache Fs N) :
    Bool × Ctx × Dcache Fs N :=
  let found : Nat × Dcache Fs N :=
    match s.lookupDentry ctx.current name with
    | some d => (d, s)
    | none => (s.next, s.allocDentry (some ctx.current) name ctx.sb (some node))
  match found.2.mounts found.1 with
  | some r => (false, ⟨r, found.2.sb r⟩, found.2)
  | none => (true, ⟨found.1, ctx.sb⟩, found.2)

/-- A backend's search: it resolves each component and reports it. -/
def search (B : Backends Fs N) (fs : Fs) :
    List Name → N → Ctx → Dcache Fs N → Option Ctx × Dcache Fs N
  | [], _, ctx, s => (some ctx, s)
  | name :: rest, node, ctx, s =>
    match B.child fs node name with
    | none => (none, s)
    | some below =>
      match s.onSearchSegment below name ctx with
      | (true, ctx', s') => search B fs rest below ctx' s'
      | (false, ctx', s') => (some ctx', s')

/-- The top of the entry's tree; a parent is older than its children. -/
def mountRoot (s : Dcache Fs N) : Nat → Nat → Nat
  | 0, d => d
  | fuel + 1, d =>
    match s.parent d with
    | some p => mountRoot s fuel p
    | none => d

/-- The names from an entry up to the root, at most so many. -/
def namesUp (s : Dcache Fs N) (root : Nat) : Nat → Nat → List Name
  | 0, _ => []
  | count + 1, d =>
    if d = root then []
    else s.name d :: (s.parent d).elim [] (namesUp s root count)

/-- One name of the inner path, left out where the buffer has no room for it. -/
def keepName (inner : List Name × Nat) (name : Name) : List Name × Nat :=
  if inner.2 + name.length + 2 < 256 then
    (inner.1 ++ [name], (if 0 < inner.2 then inner.2 + 1 else inner.2) + name.length)
  else inner

/-- The path of an entry below its mount root, as the lookup rebuilds it. -/
def innerPath (s : Dcache Fs N) (root d : Nat) : List Name :=
  ((s.namesUp root 32 d).reverse.foldl keepName ([], 0)).1

/-- The whole rest of the path is given to the file system. -/
def delegate (B : Backends Fs N) (current : Nat) (remainder : List Name) (s : Dcache Fs N) :
    Option Nat × Dcache Fs N :=
  match s.driver (s.sb current) with
  | .rootfs => (none, s)
  | .backend fs =>
    let root := s.mountRoot current current
    match s.search B fs (s.innerPath root current ++ remainder) (B.root fs)
        ⟨root, s.sb current⟩ with
    | (some ctx, s') => (some (s'.cross ctx.current), s')
    | (none, s') => (none, s')

/-- The loop of `_Index_unlocked` over the components of the path. -/
def indexFrom (B : Backends Fs N) : List Name → Nat → Dcache Fs N → Option Nat × Dcache Fs N
  | [], current, s => (some (s.cross current), s)
  | component :: rest, current, s =>
    let part := component.take (vfsMaxFilename - 1)
    if part = ['.'] then indexFrom B rest current s
    else if part = ['.', '.'] then indexFrom B rest (s.up current) s
    else
      match s.lookupDentry current part with
      | some d => indexFrom B rest (s.cross d) s
      | none => s.delegate B current (component :: rest)

end Dcache

/-- The parts of a path between its slashes. -/
def components (path : List Char) : List Name := (path.splitOn '/').filter (· ≠ [])

/-- Where a path starts. -/
def startOf (path : List Char) (base : Option Nat) : Nat :=
  if path.head? = some '/' then vfsRoot else base.getD vfsRoot

namespace Dcache

def index (B : Backends Fs N) (path : List Char) (base : Option Nat) (s : Dcache Fs N) :
    Option Nat × Dcache Fs N :=
  if path = [] then (none, s) else s.indexFrom B (components path) (startOf path base)

/-- The loop of `_Create_unlocked`. -/
def createFrom : List Name → Nat → Dcache Fs N → Nat × Dcache Fs N
  | [], current, s => (current, s)
  | component :: rest, current, s =>
    let part := component.take (vfsMaxFilename - 1)
    match s.lookupDentry current part with
    | some d => createFrom rest (s.cross d) s
    | none => createFrom rest s.next (s.allocDentry (some current) part (s.sb current) none)

def create (path : List Char) (base : Option Nat) (s : Dcache Fs N) : Option Nat × Dcache Fs N :=
  if path = [] then (none, s)
  else
    let made := s.createFrom (components path) (startOf path base)
    (some made.1, made.2)

/-- The entry to mount on: the one the path leads to, or one made for it. -/
def mountTarget (B : Backends Fs N) (path : List Char) (s : Dcache Fs N) :
    Option Nat × Dcache Fs N :=
  match s.index B path none with
  | (some target, s') => (some target, s')
  | (none, s') => s'.create path none

/-- A new superblock and its root, mounted on `target`. -/
def attach (B : Backends Fs N) (fs : Fs) (target : Nat) (s : Dcache Fs N) : Dcache Fs N :=
  let made := s.allocDentry none (s.name target) s.nextBlock (some (B.root fs))
  { made with
    superBlocks := s.nextBlock :: s.superBlocks
    nextBlock := s.nextBlock + 1
    driver := update s.driver s.nextBlock (.backend fs)
    sRoot := update s.sRoot s.nextBlock s.next
    mountedOn := update made.mountedOn s.next (some target)
    mounts := update made.mounts target (some s.next) }

/-- The first file system that holds `/.mcca.root` gives the system root path. -/
def detectRoot (B : Backends Fs N) (path : List Char) (s : Dcache Fs N) : Dcache Fs N :=
  if s.virtualRoot = none then
    match s.index B (path ++ "/.mcca.root".toList) none with
    | (some _, s') => { s' with virtualRoot := some path }
    | (none, s') => s'
  else s

/-- `MountFilesys`; `stateMade` and `blockMade` say whether the two allocations it checks
succeed. -/
def mountFilesys (B : Backends Fs N) (fs : Fs) (path : List Char) (stateMade blockMade : Bool)
    (s : Dcache Fs N) :
    Bool × Dcache Fs N :=
  if stateMade = false then (false, s)
  else
    match s.mountTarget B path with
    | (none, s') => (false, s')
    | (some target, s') =>
      if (s'.mounts target).isSome ∨ blockMade = false then (false, s')
      else (true, (s'.attach B fs target).detectRoot B path)

/-- The entries `_Prune_unlocked` visits from `d`. -/
def subtree (children : Nat → List Nat) : Nat → Nat → List Nat
  | 0, _ => []
  | fuel + 1, d => d :: (children d).flatMap (subtree children fuel)

def prune (d : Nat) (s : Dcache Fs N) : Dcache Fs N :=
  { s with live := fun x => s.live x && !decide (x ∈ subtree s.children s.next d) }

/-- The entry whose mount `Unmount` takes away: a path to a mounted root means its mount point. -/
def unmountTarget (s : Dcache Fs N) (target : Nat) : Nat :=
  if (s.mounts target).isNone then (s.mountedOn target).getD target else target

def detach (target root : Nat) (s : Dcache Fs N) : Dcache Fs N :=
  prune root { s with
    superBlocks := s.superBlocks.erase (s.sb root)
    mounts := update s.mounts target none }

def unmount (B : Backends Fs N) (path : List Char) (s : Dcache Fs N) : Bool × Dcache Fs N :=
  match s.index B path none with
  | (none, s') => (false, s')
  | (some target, s') =>
    match s'.mounts (s'.unmountTarget target) with
    | none => (false, s')
    | some root => (true, s'.detach (s'.unmountTarget target) root)

end Dcache

/-- The directories `Filesys::Initialize` makes below the root. -/
def standardDirs : List Name :=
  ["bin", "boot", "dev", "etc", "her", "home", "proc", "run", "sys", "usr", "var"].map String.toList

/-- The root entry alone. -/
def rootOnly (Fs N : Type) : Dcache Fs N where
  live d := d = vfsRoot
  next := 1
  parent _ := none
  children _ := []
  name _ := ['/']
  sb _ := 0
  node _ := none
  mounts _ := none
  mountedOn _ := none
  superBlocks := [0]
  nextBlock := 1
  driver _ := .rootfs
  sRoot _ := vfsRoot
  virtualRoot := none

/-- The entries of `Filesys::Initialize`, before its first mount. -/
def initialized (Fs N : Type) : Dcache Fs N :=
  standardDirs.foldl (fun s name => s.allocDentry (some vfsRoot) name 0 none) (rootOnly Fs N)

inductive VfsEvent (Fs : Type) where
  | lookup (path : List Char) (base : Option Nat)
  | create (path : List Char) (base : Option Nat)
  | mount (fs : Fs) (path : List Char) (stateMade blockMade : Bool)
  | unmount (path : List Char)
  deriving DecidableEq

/-- One call; a base is an entry in use. -/
def VfsEvent.exec (B : Backends Fs N) (s : Dcache Fs N) : VfsEvent Fs → Option (Dcache Fs N)
  | .lookup path base => if base.all s.live then some (s.index B path base).2 else none
  | .create path base => if base.all s.live then some (s.create path base).2 else none
  | .mount fs path stateMade blockMade => some (s.mountFilesys B fs path stateMade blockMade).2
  | .unmount path => some (s.unmount B path).2

end Mecocoa.Vfs
