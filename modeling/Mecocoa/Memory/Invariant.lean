import Mecocoa.Memory.References
import Mecocoa.Memory.VmaEdits

/-! # What holds in every state

The invariant has five parts: reference counts, who may write through a leaf,
the shape of each address space, the state of shared file pages, and the
content of cached file data.  It is stated for the processes that `seen` picks
where a failed fork leaves its child and its parent with the same page for a
while.

The steps here are the ones operations are made of: a leaf is installed, taken
out or changes its properties, a list of areas is replaced, bytes are written to
a page.
-/

namespace Mecocoa.Memory

open Function Option

open Lib (holders)

/-- The page belongs to a load slice of the process. -/
def InSlices (proc : Proc) (a : Nat) : Prop :=
  ∃ slice ∈ proc.loadSlices, slice.2 ≠ 0 ∧ a ∈ slicePages slice

/-- A process that has, or is getting, an address space. -/
def Active (s : Sys) (p : Nat) : Prop := (s.procs p).life = .live ∨ (s.procs p).life = .building

/-- The area over the page maps this page of the file, shared. -/
def SharedHome (t : Target) (s : Sys) (p a : Nat) (pg : SharedFilePage) : Prop :=
  ∃ attrs file, attrsAt t (s.vmas p) a = some attrs ∧ attrs.type = .file ∧
  attrs.mode = .shared ∧
    attrs.backing = some (file, pg.fileOffset) ∧ file.fInode = some pg.identity

/-- The area over the page is a shared mapping of a file. -/
def SharedArea (t : Target) (vmas : List Vma) (a : Nat) : Prop :=
  ∃ attrs, attrsAt t vmas a = some attrs ∧ attrs.type = .file ∧ attrs.mode = .shared

/-- The page is in the table of shared pages. -/
def SharedFrame (s : Sys) (f : Nat) : Prop := ∃ pg ∈ s.shared, pg.physicalAddress = f

structure LeafInv (t : Target) (seen : Nat → Prop) (s : Sys) : Prop where
  aligned : ∀ p a e, s.pte p a = some e → Aligned a
  homed : ∀ p a e, s.pte p a = some e → attrsAt t (s.vmas p) a ≠ none ∨
    InSlices (s.procs p) a
  permitted : ∀ p a e attrs, s.pte p a = some e → e.props.writable = true →
    attrsAt t (s.vmas p) a = some attrs → attrs.flags.writable = true
  tables : (tableFrames s).Nodup
  sharedLeaf : ∀ p a e, s.pte p a = some e →
    ∀ pg ∈ s.shared, pg.physicalAddress = e.frame → SharedHome t s p a pg
  sharedArea : ∀ p a e, s.pte p a = some e → SharedArea t (s.vmas p) a → SharedFrame s e.frame
  exclusive : ∀ p a e, seen p → s.pte p a = some e → e.props.writable = true →
    SharedFrame s e.frame ∨
      e.frame ∉ tableFrames s ∧ ∀ q b, seen q → leafFrame s (q, b) = some e.frame →
      q = p ∧ b = a

structure SpaceInv (t : Target) (s : Sys) : Prop where
  areas : ∀ p, VmasOk (s.vmas p)
  bounded : ∀ p, ∀ v ∈ s.vmas p, v.Bounded t
  plain : ∀ p a attrs, attrsAt t (s.vmas p) a = some attrs → attrs.type ≠ .device ∧
    a < t.userEnd
  slicesFree : ∀ p a, InSlices (s.procs p) a → attrsAt t (s.vmas p) a = none
  slicesLow : ∀ p a, InSlices (s.procs p) a → a < (s.procs p).heapbtm
  gone : ∀ p, ¬ Active s p → s.vmas p = [] ∧ ∀ a, s.pte p a = none

structure TableInv (s : Sys) : Prop where
  keys : s.shared.Pairwise fun a b => ¬ (a.identity = b.identity ∧ a.fileOffset = b.fileOffset)
  shape : ∀ pg ∈ s.shared, pg.identity ≠ 0 ∧ Aligned pg.fileOffset
  pinned : ∀ pg ∈ s.shared, pg.dirty = true → pg.dirtyInode = some pg.identity
  dirty : ∀ p a e, s.pte p a = some e → e.props.writable = true →
    ∀ pg ∈ s.shared, pg.physicalAddress = e.frame → pg.dirty = true ∧ (p, a) ∈ pg.aliases

/-- The page holds the bytes of the file that lie below its end. -/
def HoldsFile (s : Sys) (f ino fileOffset : Nat) : Prop :=
  ∀ i < pageSize, fileOffset + i < (s.inodes ino).iSize →
  s.mem f i = (s.inodes ino).backend (fileOffset + i)

structure ContentInv (s : Sys) : Prop where
  clean : ∀ pg ∈ s.shared, pg.dirty = false →
    HoldsFile s pg.physicalAddress pg.identity pg.fileOffset
  covered : ∀ pg ∈ s.shared, pg.dirty = true → pg.fileOffset < (s.inodes pg.identity).iSize
  cached : ∀ e ∈ s.cache, HoldsFile s e.physicalAddress e.identity e.fileOffset
  current : ∀ e ∈ s.cache, e.identity ≠ 0 ∧
    e.contentVersion = (s.inodes e.identity).contentVersion

structure Inv (t : Target) (seen : Nat → Prop) (k : Tokens) (s : Sys) : Prop where
  refs : RefInv k s
  leaf : LeafInv t seen s
  space : SpaceInv t s
  table : TableInv s
  content : ContentInv s

/-! ## File content -/

/-- The physical page of the shared page at an offset. -/
def sharedFrame (s : Sys) (ino fileOffset : Nat) : Option Nat :=
  (findSharedPage s ino fileOffset).map (·.physicalAddress)

/-- The byte of a file that its readers see. -/
def fileByte (s : Sys) (ino offset : Nat) : UInt8 :=
  match sharedFrame s ino (pageFloor offset) with
  | some f => s.mem f (offset % pageSize)
  | none => (s.inodes ino).backend offset

/-- No file changed its size or a byte below it. -/
def FileSame (s s' : Sys) : Prop :=
  ∀ ino, (s'.inodes ino).iSize = (s.inodes ino).iSize ∧
    ∀ offset < (s.inodes ino).iSize, fileByte s' ino offset = fileByte s ino offset

namespace FileSame

theorem refl (s : Sys) : FileSame s s := fun _ => ⟨rfl, fun _ _ => rfl⟩

theorem trans (first : FileSame s mid) (second : FileSame mid s') : FileSame s s' := by
  intro ino
  obtain ⟨size, bytes⟩ := first ino
  obtain ⟨size', bytes'⟩ := second ino
  exact ⟨size'.trans size, fun offset below => (bytes' offset (size ▸ below)).trans
    (bytes offset below)⟩

end FileSame

theorem findSharedPage_some
    (found : findSharedPage s ino fileOffset = some pg) :
    pg ∈ s.shared ∧ pg.identity = ino ∧ pg.fileOffset = fileOffset ∧ ino ≠ 0 ∧
      Aligned fileOffset := by
  obtain ⟨shape, found⟩ := ite_none_left_eq_some.mp found
  simp only [not_or, not_not] at shape
  have key := List.find?_some found
  simp only [Bool.and_eq_true, beq_iff_eq] at key
  exact ⟨List.mem_of_find?_eq_some found, key.1, key.2, shape.1, shape.2⟩

theorem TableInv.unique (inv : TableInv s) (here : pg ∈ s.shared)
    (there : pg' ∈ s.shared) (identity : pg.identity = pg'.identity)
    (fileOffset : pg.fileOffset = pg'.fileOffset) : pg = pg' := by
  by_contra different
  have symmetric : Std.Symm fun a b : SharedFilePage =>
      ¬ (a.identity = b.identity ∧ a.fileOffset = b.fileOffset) :=
    ⟨fun _ _ apart same => apart ⟨same.1.symm, same.2.symm⟩⟩
  exact List.Pairwise.forall inv.keys here there different ⟨identity, fileOffset⟩

theorem TableInv.find (inv : TableInv s) (here : pg ∈ s.shared) :
    findSharedPage s pg.identity pg.fileOffset = some pg := by
  obtain ⟨identity, aligned⟩ := inv.shape pg here
  cases found : findSharedPage s pg.identity pg.fileOffset with
  | none =>
    unfold findSharedPage at found
    rw [if_neg (by simp [identity, aligned])] at found
    have unseen := List.find?_eq_none.mp found pg here
    simp at unseen
  | some pg' =>
    obtain ⟨there, sameIdentity, sameOffset, -, -⟩ := findSharedPage_some found
    rw [inv.unique there here sameIdentity sameOffset]

theorem TableInv.sharedFrame_iff (inv : TableInv s) :
    sharedFrame s ino fileOffset = some f ↔
      ∃ pg ∈ s.shared, pg.identity = ino ∧ pg.fileOffset = fileOffset ∧
      pg.physicalAddress = f := by
  unfold sharedFrame
  constructor
  · intro found
    obtain ⟨pg, page, rfl⟩ := map_eq_some_iff.mp found
    obtain ⟨here, identity, offset, -, -⟩ := findSharedPage_some page
    exact ⟨pg, here, identity, offset, rfl⟩
  · rintro ⟨pg, here, rfl, rfl, rfl⟩
    rw [inv.find here]
    rfl

/-! ## Steps that leave processes and tables alone -/

theorem LeafInv.congr (inv : LeafInv t seen s)
    (procs : s'.procs = s.procs) (cache : s'.cache = s.cache) (shared : s'.shared = s.shared) :
    LeafInv t seen s' := by
  cases s
  cases s'
  subst procs cache shared
  exact ⟨inv.aligned, inv.homed, inv.permitted, inv.tables, inv.sharedLeaf, inv.sharedArea,
    inv.exclusive⟩

theorem SpaceInv.congr (inv : SpaceInv t s) (procs : s'.procs = s.procs) : SpaceInv t s' := by
  cases s
  cases s'
  subst procs
  exact ⟨inv.areas, inv.bounded, inv.plain, inv.slicesFree, inv.slicesLow, inv.gone⟩

theorem TableInv.congr (inv : TableInv s) (procs : s'.procs = s.procs)
    (shared : s'.shared = s.shared) : TableInv s' := by
  cases s
  cases s'
  subst procs shared
  exact ⟨inv.keys, inv.shape, inv.pinned, inv.dirty⟩

theorem HoldsFile.congr (holds : HoldsFile s f ino fileOffset)
    (mem : s'.mem f = s.mem f) (inodes : s'.inodes ino = s.inodes ino) :
    HoldsFile s' f ino fileOffset := by
  intro i small below
  rw [mem, inodes]
  exact holds i small (inodes ▸ below)

theorem mem_tableFrames_cache {e} (member : e ∈ s.cache) :
    e.physicalAddress ∈ tableFrames s :=
  List.mem_append_left _ (List.mem_map_of_mem member)

theorem mem_tableFrames_shared (member : pg ∈ s.shared) : pg.physicalAddress ∈ tableFrames s :=
  List.mem_append_right _ (List.mem_map_of_mem member)

theorem ContentInv.congr (inv : ContentInv s) (cache : s'.cache = s.cache)
    (shared : s'.shared = s.shared) (mem : ∀ f ∈ tableFrames s, s'.mem f = s.mem f)
    (inodes : s'.inodes = s.inodes) : ContentInv s' where
  clean := by
    intro pg member clean
    rw [shared] at member
    exact (inv.clean pg member clean).congr (mem _ (mem_tableFrames_shared member)) (by rw [inodes])
  covered := by
    rw [shared, inodes]
    exact inv.covered
  cached := by
    intro e member
    rw [cache] at member
    exact (inv.cached e member).congr (mem _ (mem_tableFrames_cache member)) (by rw [inodes])
  current := by
    intro e member
    rw [cache] at member
    rw [inodes]
    exact inv.current e member

theorem FileSame.of_shared (shared : s'.shared = s.shared)
    (mem : ∀ f ∈ tableFrames s, s'.mem f = s.mem f) (inodes : s'.inodes = s.inodes) :
    FileSame s s' := by
  intro ino
  refine ⟨by rw [inodes], ?_⟩
  intro offset _
  have same : findSharedPage s' ino (pageFloor offset) =
      findSharedPage s ino (pageFloor offset) := by
    unfold findSharedPage
    rw [shared]
  unfold fileByte sharedFrame
  rw [same, inodes]
  cases found : findSharedPage s ino (pageFloor offset) with
  | none => rfl
  | some pg =>
    simp only [map_some]
    rw [mem _ (mem_tableFrames_shared (findSharedPage_some found).1)]

section Steps

/-- The invariant holds afterwards, and no file changed. -/
abbrev Keeps (t : Target) (seen : Nat → Prop) (k : Tokens) (s s' : Sys) : Prop :=
  Inv t seen k s' ∧ FileSame s s'

variable {s s' : Sys}

/-- Reference counts, pins and pages outside the tables may change freely. -/
theorem Inv.transport (inv : Inv t seen k s) (refs : RefInv k' s') (procs : s'.procs = s.procs)
    (cache : s'.cache = s.cache) (shared : s'.shared = s.shared)
    (mem : ∀ f ∈ tableFrames s, s'.mem f = s.mem f) (inodes : s'.inodes = s.inodes) :
    Keeps t seen k' s s' :=
  ⟨⟨refs, inv.leaf.congr procs cache shared, inv.space.congr procs,
  inv.table.congr procs shared,
    inv.content.congr cache shared mem inodes⟩, .of_shared shared mem inodes⟩

theorem Inv.refsOnly (inv : Inv t seen k s) (same : RefsOnly s s') (refs : RefInv k' s') :
    Keeps t seen k' s s' :=
  inv.transport refs same.procs same.cache same.shared (fun _ _ => by rw [same.mem]) same.inodes

theorem Inv.copyToFrame (inv : Inv t seen k s) (outside : f ∉ tableFrames s)
    (first length : Nat) (bytes : Nat → UInt8) :
    Keeps t seen k s (s.copyToFrame f first length bytes) := by
  refine inv.transport (inv.refs.congr rfl (List.Perm.refl _) rfl rfl) rfl rfl rfl ?_ rfl
  intro g member
  have other : g ≠ f := fun same => outside (same ▸ member)
  exact update_of_ne other ..

/-! ## One process and one leaf -/

/-- What holds of a process in its own right. -/
structure ProcOk (t : Target) (proc : Proc) : Prop where
  areas : VmasOk proc.vmas
  bounded : ∀ v ∈ proc.vmas, v.Bounded t
  plain : ∀ a attrs, attrsAt t proc.vmas a = some attrs → attrs.type ≠ .device ∧
    a < t.userEnd
  slicesFree : ∀ a, InSlices proc a → attrsAt t proc.vmas a = none
  slicesLow : ∀ a, InSlices proc a → a < proc.heapbtm
  gone : ¬ (proc.life = .live ∨ proc.life = .building) → proc.vmas = [] ∧
    ∀ a, proc.paging a = none

/-- What holds of a leaf in its own right. -/
structure LeafOk (t : Target) (s : Sys) (p a : Nat) (e : Pte) : Prop where
  aligned : Aligned a
  homed : attrsAt t (s.vmas p) a ≠ none ∨ InSlices (s.procs p) a
  permitted : e.props.writable = true → ∀ attrs, attrsAt t (s.vmas p) a = some attrs →
    attrs.flags.writable = true
  shared : ∀ pg ∈ s.shared, pg.physicalAddress = e.frame →
    SharedHome t s p a pg ∧
    (e.props.writable = true → pg.dirty = true ∧ (p, a) ∈ pg.aliases)
  area : SharedArea t (s.vmas p) a → SharedFrame s e.frame

/-- A page with a leaf keeps what its area maps, and the new protection allows what the
leaf allows. -/
def Refits (e : Pte) (before after : Option PageAttrs) : Prop :=
  match before, after with
  | none, none => True
  | some old, some new => new.type = old.type ∧ new.mode = old.mode ∧
    new.backing = old.backing ∧
      (e.props.writable = true → new.flags.writable = true)
  | _, _ => False

theorem spaceInv_iff : SpaceInv t s ↔ ∀ p, ProcOk t (s.procs p) := by
  constructor
  · exact fun inv p =>
      ⟨inv.areas p, inv.bounded p, inv.plain p, inv.slicesFree p, inv.slicesLow p, inv.gone p⟩
  · exact fun ok =>
      ⟨fun p => (ok p).areas, fun p => (ok p).bounded, fun p => (ok p).plain,
        fun p => (ok p).slicesFree,
      fun p => (ok p).slicesLow, fun p => (ok p).gone⟩

theorem SpaceInv.setProc (inv : SpaceInv t s) (ok : ProcOk t proc) :
    SpaceInv t (s.setProc p proc) := by
  refine spaceInv_iff.mpr fun q => ?_
  by_cases same : q = p
  · rwa [same, show (s.setProc p proc).procs p = proc from update_self ..]
  · rw [show (s.setProc p proc).procs q = s.procs q from update_of_ne same ..]
    exact spaceInv_iff.mp inv q

/-- Leaves change, where there is an address space. -/
theorem SpaceInv.leaves (inv : SpaceInv t s) (rest : ∀ p, SameProc (s.procs p) (s'.procs p))
    (active : ∀ p a e, s'.pte p a = some e → Active s p) : SpaceInv t s' := by
  refine spaceInv_iff.mpr fun p => ?_
  have ok := spaceInv_iff.mp inv p
  have gone : ¬ Active s p → ∀ a, s'.pte p a = none := by
    intro dead a
    cases here : s'.pte p a with
    | none => rfl
    | some e => exact absurd (active p a e here) dead
  rw [rest p]
  exact ⟨ok.areas, ok.bounded, ok.plain, ok.slicesFree, ok.slicesLow,
    fun dead => ⟨(ok.gone dead).1, gone dead⟩⟩

theorem SpaceInv.active (inv : SpaceInv t s) (here : s.pte p a = some e) : Active s p := by
  by_contra dead
  exact absurd ((inv.gone p dead).2 a |>.symm.trans here) (by simp)

theorem Inv.leafOk (inv : Inv t seen k s) (here : s.pte p a = some e) : LeafOk t s p a e where
  aligned := inv.leaf.aligned p a e here
  homed := inv.leaf.homed p a e here
  permitted := fun writable attrs => inv.leaf.permitted p a e attrs here writable
  shared := fun pg member frame => ⟨inv.leaf.sharedLeaf p a e here pg member frame,
    fun writable => inv.table.dirty p a e here writable pg member frame⟩
  area := inv.leaf.sharedArea p a e here

theorem SharedHome.congr (home : SharedHome t s p a pg)
    (vmas : attrsAt t (s'.vmas p) a = attrsAt t (s.vmas p) a)
    (identity : pg'.identity = pg.identity) (fileOffset : pg'.fileOffset = pg.fileOffset) :
    SharedHome t s' p a pg' := by
  unfold SharedHome at home ⊢
  rw [vmas, identity, fileOffset]
  exact home

/-- The area over a leaf changes, or the leaf loses permissions. -/
theorem LeafOk.refit (ok : LeafOk t s p a e)
    (fits : Refits e' (attrsAt t (s.vmas p) a) (attrsAt t (s'.vmas p) a))
    (slices : InSlices (s.procs p) a → InSlices (s'.procs p) a) (shared : s'.shared = s.shared)
    (frame : e'.frame = e.frame) (fewer : e'.props.writable = true → e.props.writable = true) :
    LeafOk t s' p a e' := by
  obtain ⟨aligned, homed, -, home, area⟩ := ok
  unfold SharedHome at home
  unfold SharedArea SharedFrame at area
  rw [← shared, ← frame] at home area
  generalize after : attrsAt t (s'.vmas p) a = now at fits
  cases before : attrsAt t (s.vmas p) a with
  | none =>
    rw [before] at fits homed home
    cases now with
    | some new => exact fits.elim
    | none =>
      refine ⟨aligned, .inr (slices (homed.resolve_left (· rfl))), ?_, fun pg member same => ?_,
        ?_⟩
      · simp [after]
      · obtain ⟨⟨attrs, file, covered, -⟩, -⟩ := home pg member same
        exact absurd covered (by simp)
      · simp [SharedArea, after]
  | some old =>
    rw [before] at fits home area
    cases now with
    | none => exact fits.elim
    | some new =>
      obtain ⟨type, mode, backing, allowed⟩ := fits
      refine ⟨aligned, .inl (by simp [after]), ?_, fun pg member same => ?_, ?_⟩
      · intro writable attrs covered
        obtain rfl := some.inj (after.symm.trans covered)
        exact allowed writable
      · obtain ⟨⟨attrs, file, covered, oldType, oldMode, oldBacking, inode⟩, dirty⟩ :=
          home pg member same
        cases covered
        exact ⟨⟨new, file, after, type.trans oldType, mode.trans oldMode,
          backing.trans oldBacking, inode⟩,
          fun writable => dirty (fewer writable)⟩
      · rintro ⟨attrs, covered, newType, newMode⟩
        obtain rfl := some.inj (after.symm.trans covered)
        exact area ⟨old, rfl, type.symm.trans newType, mode.symm.trans newMode⟩

theorem LeafOk.refits_of_same (ok : LeafOk t s p a e)
    (same : after = attrsAt t (s.vmas p) a) : Refits e (attrsAt t (s.vmas p) a) after := by
  subst same
  cases area : attrsAt t (s.vmas p) a with
  | none => trivial
  | some attrs => exact ⟨rfl, rfl, rfl, fun writable => ok.permitted writable attrs area⟩

/-- A leaf loses permissions at most, and its process changes in other leaves. -/
theorem LeafOk.congr (ok : LeafOk t s p a e) (rest : SameProc (s.procs p) (s'.procs p))
    (shared : s'.shared = s.shared) (frame : e'.frame = e.frame)
    (fewer : e'.props.writable = true → e.props.writable = true) : LeafOk t s' p a e' := by
  have vmas : s'.vmas p = s.vmas p := by unfold Sys.vmas; rw [rest]
  have weak : LeafOk t s p a e' :=
    ⟨ok.aligned, ok.homed, fun writable => ok.permitted (fewer writable), fun pg member same =>
      ⟨(ok.shared pg member (same.trans frame)).1, fun writable =>
        (ok.shared pg member (same.trans frame)).2 (fewer writable)⟩, fun area =>
        frame ▸ ok.area area⟩
  refine weak.refit (weak.refits_of_same (by rw [vmas])) ?_ shared rfl id
  rw [rest]
  exact id

theorem sameProc_setPte (s : Sys) (p a : Nat) (e : Option Pte) (q : Nat) :
    SameProc (s.procs q) ((s.setPte p a e).procs q) := by
  unfold SameProc Sys.setPte Sys.setProc
  by_cases same : q = p
  · subst same
    simp
  · simp [same]

/-! ## Steps of the page tables -/

theorem Inv.of_leaves (inv : Inv t seen k s) (refs : RefInv k' s') (cache : s'.cache = s.cache)
    (shared : s'.shared = s.shared) (mem : s'.mem = s.mem) (inodes : s'.inodes = s.inodes)
    (space : SpaceInv t s') (leaves : ∀ p a e, s'.pte p a = some e → LeafOk t s' p a e)
    (exclusive : ∀ p a e, seen' p → s'.pte p a = some e → e.props.writable = true →
      SharedFrame s' e.frame ∨
      e.frame ∉ tableFrames s' ∧ ∀ q b, seen' q → leafFrame s' (q, b) = some e.frame →
      q = p ∧ b = a) :
    Keeps t seen' k' s s' := by
  have tables : tableFrames s' = tableFrames s := by unfold tableFrames; rw [cache, shared]
  refine ⟨⟨refs,
    ⟨fun p a e here => (leaves p a e here).aligned, fun p a e here => (leaves p a e here).homed,
    ?_,
    tables ▸ inv.leaf.tables, ?_, fun p a e here => (leaves p a e here).area, exclusive⟩, space,
    ⟨shared ▸ inv.table.keys, shared ▸ inv.table.shape, shared ▸ inv.table.pinned, ?_⟩,
    inv.content.congr cache shared (fun _ _ => by rw [mem]) inodes⟩,
    .of_shared shared (fun _ _ => by rw [mem]) inodes⟩
  · exact fun p a e attrs here writable => (leaves p a e here).permitted writable attrs
  · exact fun p a e here pg member frame => ((leaves p a e here).shared pg member frame).1
  · exact fun p a e here writable pg member frame =>
      ((leaves p a e here).shared pg member frame).2 writable

/-- Every leaf was there before with no fewer permissions. -/
theorem Inv.lessen (inv : Inv t seen k s) (refs : RefInv k' s') (cache : s'.cache = s.cache)
    (shared : s'.shared = s.shared) (mem : s'.mem = s.mem) (inodes : s'.inodes = s.inodes)
    (space : SpaceInv t s')
    (old : ∀ p a e, s'.pte p a = some e → (seen' p → seen p) ∧
      ∃ e', s.pte p a = some e' ∧ e'.frame = e.frame ∧
      (e.props.writable = true → e'.props.writable = true))
    (leaves : ∀ p a e, s'.pte p a = some e → LeafOk t s' p a e) : Keeps t seen' k' s s' := by
  refine inv.of_leaves refs cache shared mem inodes space leaves fun p a e visible here writable =>
    ?_
  obtain ⟨sees, e', was, same, fewer⟩ := old p a e here
  unfold SharedFrame tableFrames
  rw [shared, cache, ← same]
  refine (inv.leaf.exclusive p a e' (sees visible) was (fewer writable)).imp_right
    fun ⟨outside, only⟩ => ⟨outside, ?_⟩
  intro q b visibleQ mapped
  obtain ⟨e₂, found, frame⟩ := map_eq_some_iff.mp mapped
  obtain ⟨seesQ, e₃, wasQ, sameQ, -⟩ := old q b e₂ found
  exact only q b (seesQ visibleQ) (frame ▸ sameQ ▸ leafFrame_eq_some wasQ)

/-- A leaf is set; the conditions are those of the invariant for this leaf and for the
writable leaves that map the same page. -/
theorem Inv.setLeaf (inv : Inv t seen k s)
    (refs : RefInv k' (s.setPte p a (some ⟨f, props⟩))) (active : Active s p)
    (ok : LeafOk t s p a ⟨f, props⟩)
    (alone : seen p → props.writable = true → SharedFrame s f ∨
    f ∉ tableFrames s ∧ ∀ q b, seen q → leafFrame s (q, b) = some f → q = p ∧ b = a)
    (others : ∀ q b e, seen q → ¬ (q = p ∧ b = a) → s.pte q b = some e →
      e.props.writable = true →
    e.frame = f → SharedFrame s f ∨ ¬ seen p) :
    Keeps t seen k' s (s.setPte p a (some ⟨f, props⟩)) := by
  have frames : ∀ q b g, leafFrame (s.setPte p a (some ⟨f, props⟩)) (q, b) = some g →
      q = p ∧ b = a ∧ g = f ∨ leafFrame s (q, b) = some g := by
    intro q b g mapped
    rw [leafFrame_setPte] at mapped
    by_cases same : (q, b) = (p, a)
    · rw [same, update_self] at mapped
      obtain ⟨rfl, rfl⟩ := Prod.mk.inj same
      exact .inl ⟨rfl, rfl, (some.inj mapped).symm⟩
    · rw [update_of_ne same] at mapped
      exact .inr mapped
  have rest := sameProc_setPte s p a (some ⟨f, props⟩)
  refine inv.of_leaves refs rfl rfl rfl rfl (inv.space.leaves rest ?_) ?_ ?_
  · intro q b e here
    rw [Sys.pte_setPte] at here
    split at here
    · rename_i same
      exact same.1 ▸ active
    · exact inv.space.active here
  · intro q b e here
    rw [Sys.pte_setPte] at here
    split at here
    · rename_i same
      obtain ⟨rfl, rfl⟩ := same
      cases here
      exact ok.congr (rest q) rfl rfl id
    · exact (inv.leafOk here).congr (rest q) rfl rfl id
  · intro q b e visible here writable
    rw [Sys.pte_setPte] at here
    split at here
    · rename_i same
      obtain ⟨rfl, rfl⟩ := same
      cases here
      rcases alone visible writable with shared | ⟨outside, only⟩
      · exact .inl shared
      · refine .inr ⟨outside, ?_⟩
        intro r c visibleR mapped
        rcases frames r c _ mapped with ⟨sameProc, sameAddr, -⟩ | old
        · exact ⟨sameProc, sameAddr⟩
        · exact only r c visibleR old
    · rename_i different
      rcases inv.leaf.exclusive q b e visible here writable with shared | ⟨outside, only⟩
      · exact .inl shared
      by_cases shared : SharedFrame s e.frame
      · exact .inl shared
      refine .inr ⟨outside, fun r c visibleR mapped => ?_⟩
      rcases frames r c _ mapped with ⟨rfl, -, frame⟩ | old
      · exact ((others q b e visible different here writable frame).elim (frame ▸ shared)
          (· visibleR)).elim
      · exact only r c visibleR old

/-- A page that nothing refers to yet gets its first leaf. -/
theorem Inv.installFresh (inv : Inv t seen (k.hold f) s)
    (props : PageProps) (free : s.pte p a = none) (unmapped : ∀ l, leafFrame s l ≠ some f)
    (outside : f ∉ tableFrames s) (active : Active s p) (aligned : Aligned a)
    (home : attrsAt t (s.vmas p) a ≠ none ∨ InSlices (s.procs p) a)
    (ownArea : ¬ SharedArea t (s.vmas p) a)
    (permitted : props.writable = true → ∀ attrs, attrsAt t (s.vmas p) a = some attrs →
      attrs.flags.writable = true) :
    Keeps t seen k s (s.setPte p a (some ⟨f, props⟩)) := by
  have unshared : ∀ pg ∈ s.shared, pg.physicalAddress ≠ f :=
    fun pg member same => outside (same ▸ mem_tableFrames_shared member)
  refine inv.setLeaf (inv.refs.install free props) active ⟨aligned, home, permitted,
    fun pg member same => absurd same (unshared pg member), fun area => absurd area ownArea⟩
    (fun _ _ => .inr ⟨outside, ?_⟩) ?_
  · intro q b _ mapped
    exact absurd mapped (unmapped (q, b))
  · intro q b e _ _ here _ frame
    exact absurd (frame ▸ leafFrame_eq_some here) (unmapped (q, b))

/-- A page gets a further leaf that may not be written through. -/
theorem Inv.installReadOnly (inv : Inv t seen (k.hold f) s)
    (free : s.pte p a = none) (readOnly : props.writable = false)
    (active : Active s p) (aligned : Aligned a) (home : attrsAt t (s.vmas p) a ≠ none)
    (sharedHome : ∀ pg ∈ s.shared, pg.physicalAddress = f → SharedHome t s p a pg)
    (sharedArea : SharedArea t (s.vmas p) a → SharedFrame s f)
    (unwritten : ∀ q b e, seen q → s.pte q b = some e → e.props.writable = true →
      e.frame = f →
    SharedFrame s f) : Keeps t seen k s (s.setPte p a (some ⟨f, props⟩)) := by
  have locked : ¬ props.writable = true := by simp [readOnly]
  refine inv.setLeaf (inv.refs.install free props) active
    ⟨aligned, .inl home, fun writable => absurd writable locked,
    fun pg member same => ⟨sharedHome pg member same, fun writable => absurd writable locked⟩,
    sharedArea⟩
    (fun _ writable => absurd writable locked) ?_
  intro q b e visible _ here writable frame
  exact .inl (unwritten q b e visible here writable frame)

/-- Leaves changed their properties at most, and none gained write permission. -/
structure Weaker (s s' : Sys) : Prop where
  rest : ∀ p, SameProc (s.procs p) (s'.procs p)
  leaf : ∀ p a, s'.pte p a = s.pte p a ∨ ∃ e props, s.pte p a = some e ∧
    s'.pte p a = some ⟨e.frame, props⟩ ∧ (props.writable = true → e.props.writable = true)

namespace Weaker

variable (weak : Weaker s s')

include weak

theorem vmas (p : Nat) : s'.vmas p = s.vmas p := by
  unfold Sys.vmas
  rw [weak.rest p]

theorem life (p : Nat) : (s'.procs p).life = (s.procs p).life := by
  rw [weak.rest p]

theorem inSlices (p a : Nat) : InSlices (s'.procs p) a ↔ InSlices (s.procs p) a := by
  rw [weak.rest p]
  rfl

theorem old (here : s'.pte p a = some e) : ∃ e', s.pte p a = some e' ∧ e'.frame = e.frame ∧
      (e.props.writable = true → e'.props.writable = true) := by
  rcases weak.leaf p a with same | ⟨e', props, was, now, fewer⟩
  · exact ⟨e, same ▸ here, rfl, fun writable => writable⟩
  · obtain rfl := some.inj (now.symm.trans here)
    exact ⟨e', was, rfl, fewer⟩

theorem leafFrame : leafFrame s' = leafFrame s := by
  funext l
  unfold Memory.leafFrame
  rcases weak.leaf l.1 l.2 with same | ⟨e, props, was, now, -⟩
  · rw [same]
  · rw [was, now]
    rfl

omit weak

theorem of_protected (protect : WriteProtected s s') : Weaker s s' where
  rest := protect.rest
  leaf := by
    intro p a
    rcases protect.leaf p a with same | ⟨e, -, was, -, -, -, now⟩
    · exact .inl same
    · exact .inr ⟨e, _, was, now, by simp⟩

theorem setPte (here : s.pte p a = some e)
    (fewer : props.writable = true → e.props.writable = true) :
    Weaker s (s.setPte p a (some ⟨e.frame, props⟩)) where
  rest := sameProc_setPte s p a _
  leaf := by
    intro q b
    rw [Sys.pte_setPte]
    by_cases same : q = p ∧ b = a
    · obtain ⟨rfl, rfl⟩ := same
      rw [if_pos ⟨rfl, rfl⟩]
      exact .inr ⟨e, props, here, rfl, fewer⟩
    · rw [if_neg same]
      exact .inl rfl

end Weaker

theorem Inv.weaken (inv : Inv t seen k s) (weak : Weaker s s') (managed : s'.managed = s.managed)
    (pool : s'.pool = s.pool) (mem : s'.mem = s.mem) (cache : s'.cache = s.cache)
    (shared : s'.shared = s.shared) (inodes : s'.inodes = s.inodes) : Keeps t seen k s s' := by
  have frames : tableFrames s' = tableFrames s := by unfold tableFrames; rw [cache, shared]
  refine inv.lessen (inv.refs.congr weak.leafFrame (frames ▸ List.Perm.refl _) managed pool) cache
    shared mem inodes
    (inv.space.leaves weak.rest fun p a e here => ?_) (fun p a e here => ⟨id, weak.old here⟩)
    fun p a e here => ?_
  · obtain ⟨e', was, -⟩ := weak.old here
    exact inv.space.active was
  · obtain ⟨e', was, same, fewer⟩ := weak.old here
    exact (inv.leafOk was).congr (weak.rest p) shared same.symm fewer

theorem Inv.setProps (inv : Inv t seen k s) (here : s.pte p a = some e)
    (props : PageProps) (fewer : props.writable = true → e.props.writable = true) :
    Keeps t seen k s (s.setPte p a (some ⟨e.frame, props⟩)) :=
  inv.weaken (.setPte here fewer) rfl rfl rfl rfl rfl rfl

theorem Inv.protectedOnly (inv : Inv t seen k s) (only : ProtectedOnly s s') :
    Keeps t seen k s s' :=
  inv.weaken (.of_protected only.protect) only.managed only.pool only.mem only.cache only.shared
    only.inodes

/-- A leaf is taken out; the caller holds its page. -/
theorem Inv.remove (inv : Inv t seen k s) (here : s.pte p a = some e) :
    Keeps t seen (k.hold e.frame) s (s.setPte p a none) := by
  have old : ∀ {q b e'}, (s.setPte p a none).pte q b = some e' → s.pte q b = some e' := by
    intro q b e' there
    rw [Sys.pte_setPte] at there
    obtain ⟨_, there⟩ := ite_none_left_eq_some.mp there
    exact there
  have rest := sameProc_setPte s p a none
  exact inv.lessen (inv.refs.remove here) rfl rfl rfl rfl
    (inv.space.leaves rest fun _ _ _ there => inv.space.active (old there))
    (fun _ _ e' there => ⟨id, e', old there, rfl, id⟩)
    fun q _ _ there => (inv.leafOk (old there)).congr (rest q) rfl rfl id

/-! ## Processes -/

theorem procs_setVmas (s : Sys) (p : Nat) (vmas : List Vma) (q : Nat) :
    (s.setVmas p vmas).procs q = { s.procs q with vmas := if q = p then vmas else s.vmas q } := by
  unfold Sys.setVmas Sys.setProc Sys.vmas
  by_cases same : q = p
  · subst same
    simp
  · simp [same]

theorem pte_setProc_same (proc : Proc) (paging : proc.paging = (s.procs p).paging) (q a : Nat) :
    (s.setProc p proc).pte q a = s.pte q a := by
  unfold Sys.setProc Sys.pte
  by_cases same : q = p
  · subst same
    simp [paging]
  · simp [same]

/-- A process keeps its leaves and changes in other respects. -/
theorem Inv.replaceProc (inv : Inv t seen k s) (paging : proc.paging = (s.procs p).paging)
    (ok : ProcOk t proc)
    (leaves : ∀ a e, s.pte p a = some e → LeafOk t (s.setProc p proc) p a e) :
    Keeps t seen k s (s.setProc p proc) := by
  have pte := pte_setProc_same (s := s) proc paging
  have frames : leafFrame (s.setProc p proc) = leafFrame s := by
    funext l
    simp only [leafFrame, pte]
  refine inv.lessen (inv.refs.congr frames (List.Perm.refl _) rfl rfl) rfl rfl rfl rfl
    (inv.space.setProc ok)
    (fun q a e mapped => ⟨id, e, (pte q a).symm.trans mapped, rfl, id⟩) fun q a e mapped => ?_
  rw [pte] at mapped
  by_cases same : q = p
  · subst same
    exact leaves a e mapped
  · have rest : (s.setProc p proc).procs q = s.procs q := update_of_ne same ..
    exact (inv.leafOk mapped).congr (by rw [rest]; rfl) rfl rfl id

theorem Inv.setVmas (inv : Inv t seen k s) (active : Active s p)
    (ok : VmasOk vmas) (bounded : ∀ v ∈ vmas, v.Bounded t)
    (plain : ∀ a attrs, attrsAt t vmas a = some attrs → attrs.type ≠ .device ∧
      a < t.userEnd)
    (slices : ∀ a, InSlices (s.procs p) a → attrsAt t vmas a = none)
    (leaves : ∀ a e, s.pte p a = some e →
      Refits e (attrsAt t (s.vmas p) a) (attrsAt t vmas a)) :
    Keeps t seen k s (s.setVmas p vmas) := by
  refine inv.replaceProc rfl
    ⟨ok, bounded, plain, slices, inv.space.slicesLow p, fun dead => absurd active dead⟩
    fun a e mapped => ?_
  have here : (s.setProc p { s.procs p with vmas }).procs p = { s.procs p with vmas } :=
    update_self ..
  refine (inv.leafOk mapped).refit ?_ (by rw [here]; exact id) rfl rfl id
  unfold Sys.vmas
  rw [here]
  exact leaves a e mapped

/-- A process keeps its areas and leaves and changes in other respects. -/
theorem Inv.setProc (inv : Inv t seen k s)
    (vmas : proc.vmas = (s.procs p).vmas) (paging : proc.paging = (s.procs p).paging)
    (homed : ∀ a e, s.pte p a = some e → attrsAt t (s.vmas p) a ≠ none ∨ InSlices proc a)
    (slicesFree : ∀ a, InSlices proc a → attrsAt t (s.vmas p) a = none)
    (slicesLow : ∀ a, InSlices proc a → a < proc.heapbtm)
    (active : ¬ (proc.life = .live ∨ proc.life = .building) → ¬ Active s p) :
    Keeps t seen k s (s.setProc p proc) := by
  have areas := vmas_setProc_same (s := s) proc vmas p
  have before := spaceInv_iff.mp inv.space p
  refine inv.replaceProc paging ⟨vmas ▸ before.areas, vmas ▸ before.bounded,
    vmas ▸ before.plain, ?_, slicesLow, ?_⟩
    fun a e mapped => ?_
  · rw [vmas]
    exact slicesFree
  · rw [vmas, paging]
    exact fun dead => before.gone (active dead)
  · have old := inv.leafOk mapped
    refine ⟨old.aligned, ?_, areas ▸ old.permitted, fun pg member frame => ?_,
      areas ▸ old.area⟩
    · rw [areas, show (s.setProc p proc).procs p = proc from update_self ..]
      exact homed a e mapped
    · obtain ⟨home, dirty⟩ := old.shared pg member frame
      exact ⟨home.congr (by rw [areas]) rfl rfl, dirty⟩

end Steps

end Mecocoa.Memory
