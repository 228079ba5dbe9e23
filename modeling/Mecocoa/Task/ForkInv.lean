import Mecocoa.Task.EditInv
import Mecocoa.Task.TeardownInv

/-! # Fork keeps the invariant

While the child is built, the leaves of every other process keep their page and
lose write permission at most.  A fork that fails gives the parent its write
permission back before the leaves of the child are gone; until then the
invariant is that of a machine without the child.
-/

namespace Mecocoa.Memory

open Memory List Sys Function

/-- What building the child `c` has done so far. -/
structure ForkStep (c : Nat) (s s' : Sys) : Prop where
  files : FileSame s s'
  aliases : AliasInv [] s → AliasInv [] s'
  rest : ∀ q, q ≠ c → SameProc (s.procs q) (s'.procs q)
  own : (s'.procs c).life = (s.procs c).life ∧ s'.vmas c = s.vmas c ∧
    (s'.procs c).heapbtm = (s.procs c).heapbtm
  leaf : ∀ q b, q ≠ c → s'.pte q b = s.pte q b ∨ ∃ e, s.pte q b = some e ∧
    s'.pte q b = some ⟨e.frame, e.props.readOnly⟩
  cache : s'.cache = s.cache
  pages : ∃ g, KeepsKey g ∧
    (∀ pg, (g pg).dirty = pg.dirty ∧ ∀ l ∈ pg.aliases, l ∈ (g pg).aliases) ∧
    s'.shared = s.shared.map g

/-- The noted leaves are those that the parent had at first. -/
def Noted (s : Sys) (p : Nat) (cow : List ForkCowParentPage) : Prop :=
  ∀ page ∈ cow, s.pte p page.address = some ⟨page.physicalAddress, page.writableProps⟩

section Fork

variable {p c : Nat} {k : Tokens}

namespace ForkStep

theorem of_kept (kept : Kept s s') (leaf : ∀ q b, q ≠ c → s'.pte q b = s.pte q b ∨
      ∃ e, s.pte q b = some e ∧ s'.pte q b = some ⟨e.frame, e.props.readOnly⟩)
    (cache : s'.cache = s.cache) (shared : s'.shared = s.shared) : ForkStep c s s' where
  files := kept.files
  aliases := kept.aliases
  rest := fun q _ => kept.rest q
  own := ⟨kept.life c, kept.vmas c, by rw [kept.rest c]⟩
  leaf := leaf
  cache := cache
  pages :=
    ⟨id, fun _ => ⟨rfl, rfl, rfl⟩,
      fun _ => ⟨rfl, fun _ listed => listed⟩, by rw [shared, map_id]⟩

theorem refl (c : Nat) (s : Sys) : ForkStep c s s :=
  of_kept (.refl s) (fun _ _ _ => .inl rfl) rfl rfl

theorem of_refs (same : RefsOnly s s') : ForkStep c s s' :=
  of_kept (.of_refs same) (fun q b _ => .inl (same.pte q b)) same.cache same.shared

theorem trans (first : ForkStep c s mid) (second : ForkStep c mid s') : ForkStep c s s' where
  files := first.files.trans second.files
  aliases := fun inv => second.aliases (first.aliases inv)
  rest := fun q other => (first.rest q other).trans (second.rest q other)
  own :=
    ⟨second.own.1.trans first.own.1, second.own.2.1.trans first.own.2.1,
      second.own.2.2.trans first.own.2.2⟩
  leaf := by
    intro q b other
    rcases second.leaf q b other with same | ⟨e, was, now⟩
    · rw [same]
      exact first.leaf q b other
    · rcases first.leaf q b other with same | ⟨e', before, after⟩
      · exact .inr ⟨e, same ▸ was, now⟩
      · obtain rfl := Option.some.inj (after.symm.trans was)
        exact .inr ⟨e', before, now⟩
  cache := second.cache.trans first.cache
  pages := by
    obtain ⟨g, key, keeps, shared⟩ := first.pages
    obtain ⟨g', key', keeps', shared'⟩ := second.pages
    refine ⟨g' ∘ g, fun pg => ?_, fun pg => ?_, by rw [shared', shared, map_map]⟩
    · obtain ⟨identity, offset, frame⟩ := key pg
      obtain ⟨identity', offset', frame'⟩ := key' (g pg)
      exact ⟨identity'.trans identity, offset'.trans offset, frame'.trans frame⟩
    · exact ⟨(keeps' (g pg)).1.trans (keeps pg).1,
        fun l listed => (keeps' (g pg)).2 l ((keeps pg).2 l listed)⟩

variable (step : ForkStep c s s')

include step

theorem vmas  : s'.vmas q = s.vmas q := by
  by_cases same : q = c
  · rw [same]
    exact step.own.2.1
  · unfold Sys.vmas
    rw [step.rest q same]

theorem life  : (s'.procs q).life = (s.procs q).life := by
  by_cases same : q = c
  · rw [same]
    exact step.own.1
  · rw [step.rest q same]

theorem active  : Active s' q ↔ Active s q := by
  unfold Active
  rw [step.life]

theorem tables : tableFrames s' = tableFrames s := by
  obtain ⟨g, key, -, shared⟩ := step.pages
  unfold tableFrames
  rw [step.cache, shared, map_map]
  congr 1
  exact map_congr_left fun pg _ => (key pg).2.2

theorem old (other : q ≠ c) (here : s'.pte q b = some e) :
    ∃ e', s.pte q b = some e' ∧ e'.frame = e.frame ∧
      (e.props.writable = true → e' = e) := by
  rcases step.leaf q b other with same | ⟨e', was, now⟩
  · exact ⟨e, same ▸ here, rfl, fun _ => rfl⟩
  · obtain rfl := Option.some.inj (now.symm.trans here)
    exact ⟨e', was, rfl, fun writable => absurd writable (by simp)⟩

omit step

theorem setChild (free : s.pte c a = none) (e : Option Pte) : ForkStep c s (s.setPte c a e) :=
  of_kept (.setPte_free free e)
    (fun q b other => .inl (by rw [pte_setPte, if_neg (by simp [other])]))
    rfl rfl

theorem copyToFrame {first length}
    (files : FileSame s (s.copyToFrame f first length bytes)) :
    ForkStep c s (s.copyToFrame f first length bytes) :=
  of_kept (.copyToFrame files) (fun _ _ _ => .inl rfl) rfl rfl

theorem downgrade (here : s.pte p a = some e)
    (files : FileSame s (s.setPte p a (some ⟨e.frame, e.props.readOnly⟩))) :
    ForkStep c s (s.setPte p a (some ⟨e.frame, e.props.readOnly⟩)) := by
  refine of_kept ⟨files, .setPte s p a _, fun aliases => aliases.of_leaves (fun _ _ leaf =>
    leaf.setPte here fun present user => ⟨present, user⟩) rfl⟩ (fun q b _ => ?_) rfl rfl
  rw [pte_setPte]
  split
  · rename_i same
    exact .inr ⟨e, by rw [same.1, same.2]; exact here, rfl⟩
  · exact .inl rfl

theorem registerSharedFileAlias (inv : Inv t seen k s) (c : Nat) (ino fileOffset q a frame : Nat)
    (node : Bool) : ForkStep c s (registerSharedFileAlias s ino fileOffset q a frame node).2 := by
  obtain ⟨-, kept⟩ := inv.registerSharedFileAlias ino fileOffset q a frame node
  rcases registerSharedFileAlias_cases s ino fileOffset q a frame node with
    refused | ⟨pg, props, -, -, -, done⟩
  · rw [refused]
    exact refl c s
  · rw [done] at kept ⊢
    have key : KeepsKey fun pg => { pg with aliases := (q, a) :: pg.aliases } :=
      fun _ => ⟨rfl, rfl, rfl⟩
    refine ⟨kept.files, kept.aliases, fun q _ => kept.rest q, ⟨kept.life c, kept.vmas c, rfl⟩,
      fun _ _ _ => .inl rfl, rfl, _, key.atKey ino fileOffset, fun pg => ?_, rfl⟩
    unfold atKey
    split
    · exact ⟨rfl, fun l listed => mem_cons_of_mem _ listed⟩
    · exact ⟨rfl, fun l listed => listed⟩

end ForkStep

/-! ## One page -/

/-- The child has the areas and the heap of its parent, and its own space. -/
structure Sibling (s : Sys) (p c : Nat) : Prop where
  other : p ≠ c
  active : Active s c
  areas : s.vmas c = s.vmas p
  heap : (s.procs c).heapbtm = (s.procs p).heapbtm

theorem Sibling.step (sibling : Sibling s p c) (step : ForkStep c s s') : Sibling s' p c where
  other := sibling.other
  active := step.active.mpr sibling.active
  areas := by rw [step.vmas, step.vmas, sibling.areas]
  heap := by rw [step.own.2.2, step.rest p sibling.other, sibling.heap]

/-- Of the leaves of the child only the one at `a` can have changed. -/
structure ForkAt (t : Target) (seen : Nat → Prop) (k : Tokens) (c a : Nat) (s s' : Sys) :
    Prop where
  inv : Inv t seen k s'
  step : ForkStep c s s'
  leaf : ∀ b, b ≠ a → s'.pte c b = s.pte c b

namespace ForkAt

theorem refl (inv : Inv t seen k s) : ForkAt t seen k c a s s :=
  ⟨inv, .refl c s, fun _ _ => rfl⟩

theorem of_refs (inv : Inv t seen k s') (same : RefsOnly s s') : ForkAt t seen k c a s s' :=
  ⟨inv, .of_refs same, fun b _ => same.pte c b⟩

theorem after (step : ForkStep c s mid) (leaf : ∀ b, mid.pte c b = s.pte c b)
    (next : ForkAt t seen k c a mid s') :
    ForkAt t seen k c a s s' :=
  ⟨next.inv, step.trans next.step, fun b other => (next.leaf b other).trans (leaf b)⟩

theorem setChild (free : s.pte c a = none) (inv : Inv t seen k (s.setPte c a e)) :
    ForkAt t seen k c a s (s.setPte c a e) := by
  refine ⟨inv, .setChild free e, fun b other => ?_⟩
  rw [pte_setPte, if_neg (by simp [other])]

end ForkAt

theorem Inv.forkMapChild (inv : Inv t (fun _ => True) (k.hold f) s)
    (props : PageProps) (outcome : ForkOutcome) (sibling : Sibling s p c)
    (area : vmaAt (s.vmas p) a = some v) (parent : s.pte p a = some ⟨f, own⟩)
    (locked : own.writable = false) (readOnly : props.writable = false) (free : s.pte c a = none) :
    ForkAt t (fun _ => True) k c a s (forkMapChild t s c v a f props outcome).2 := by
  have letGo : ForkAt t (fun _ => True) k c a s (releaseManagedPageMapping s f).2 :=
    .of_refs inv.release.1 (.releaseManagedPageMapping s f)
  have unwritten : ∀ q b e, True → s.pte q b = some e → e.props.writable = true →
      e.frame = f → SharedFrame s f := by
    intro q b e _ here writable frame
    rcases inv.leaf.exclusive q b e trivial here writable with shared | ⟨-, only⟩
    · exact frame ▸ shared
    · obtain ⟨rfl, rfl⟩ := only p a trivial (frame ▸ leafFrame_eq_some parent)
      obtain rfl := Option.some.inj (parent.symm.trans here)
      exact absurd writable (by simp [locked])
  obtain ⟨mapped, -⟩ := inv.installReadOnly free readOnly sibling.active
    (inv.leaf.aligned p a _ parent)
    (by rw [sibling.areas, attrsAt_of_vmaAt area]; simp)
    (fun pg member frame => by
      obtain ⟨attrs, file, covered, home⟩ := inv.leaf.sharedLeaf p a _ parent pg member frame
      exact ⟨attrs, file, by rw [sibling.areas]; exact covered, home⟩)
    (fun shared => inv.leaf.sharedArea p a _ parent (sibling.areas ▸ shared)) unwritten
  have placed := ForkAt.setChild free mapped
  unfold Memory.forkMapChild
  split
  · exact letGo
  dsimp only
  split
  · cases v.vfile.bind (·.fInode) with
    | none =>
      dsimp only
      rw [setPte_setPte, setPte_self free]
      exact letGo
    | some ino =>
      dsimp only
      have registered := mapped.registerSharedFileAlias ino
        (t.wrap (v.fileOffset + (a - v.vmStart))) c a f (outcome.aliasNode a)
      have step' := ForkStep.registerSharedFileAlias mapped c ino
        (t.wrap (v.fileOffset + (a - v.vmStart))) c a f (outcome.aliasNode a)
      rcases registerSharedFileAlias_cases (s.setPte c a (some ⟨f, props⟩)) ino
        (t.wrap (v.fileOffset + (a - v.vmStart))) c a f (outcome.aliasNode a) with
        refused | ⟨pg, props', -, -, -, done⟩
      · rw [refused]
        dsimp only
        rw [setPte_setPte, setPte_self free]
        exact letGo
      · rw [done] at registered step' ⊢
        exact ⟨registered.1, placed.step.trans step', placed.leaf⟩
  · exact placed

theorem Inv.forkSharePage (inv : Inv t (fun _ => True) k s)
    (outcome : ForkOutcome)
    (sibling : Sibling s p c) (area : vmaAt (s.vmas p) a = some v) (parent : s.pte p a = some e)
    (shareable : v.vmFlags.writable = false ∨ protectsParent v = true) (free : s.pte c a = none)
    (before : ForkStep c first s) (noted : Noted first p cow) :
    ∃ done s' cow', forkSharePage t s p c v a e cow outcome = (done, s', cow') ∧
      ForkAt t (fun _ => True) k c a s s' ∧ Noted first p cow' := by
  unfold Memory.forkSharePage
  rcases inv.refs.retainMapping t e.frame with refused | ⟨s₁, retained, same, next⟩
  · rw [refused]
    exact ⟨false, s, cow, rfl, .refl inv, noted⟩
  rw [retained]
  dsimp only
  obtain ⟨inv₁, -⟩ := inv.refsOnly same next
  have step₁ : ForkStep c s s₁ := .of_refs same
  have sibling₁ := sibling.step step₁
  have area₁ : vmaAt (s₁.vmas p) a = some v := by rw [step₁.vmas]; exact area
  have parent₁ : s₁.pte p a = some e := (same.pte p a).trans parent
  have free₁ : s₁.pte c a = none := (same.pte c a).trans free
  by_cases lowers : (protectsParent v && e.props.writable) = true
  · rw [if_pos lowers]
    have writable : e.props.writable = true := (Bool.and_eq_true _ _ ▸ lowers).2
    have noted' :
        Noted first p (if outcome.record a then cow ++ [⟨a, e.frame, e.props⟩] else cow) := by
      split
      · intro page member
        cases mem_append.mp member with
        | inl old => exact noted page old
        | inr new =>
          obtain rfl := mem_singleton.mp new
          obtain ⟨e', was, -, same⟩ := before.old sibling.other parent
          exact same writable ▸ was
      · exact noted
    generalize (if outcome.record a then cow ++ [⟨a, e.frame, e.props⟩] else cow) = cow' at *
    split
    · obtain ⟨last, -⟩ := inv₁.release
      exact ⟨false, _, cow'.dropLast, rfl,
        .of_refs last (same.trans (.releaseManagedPageMapping s₁ e.frame)),
        fun page member => noted' page (mem_of_mem_dropLast member)⟩
    · obtain ⟨inv₂, files⟩ := inv₁.setProps parent₁ e.props.readOnly (by simp)
      have step₂ := ForkStep.downgrade (c := c) parent₁ files
      have elsewhere : ∀ b, (s₁.setPte p a (some ⟨e.frame, e.props.readOnly⟩)).pte c b =
          s₁.pte c b := by
        intro b
        rw [pte_setPte, if_neg (by simp [sibling.other.symm])]
      have placed := inv₂.forkMapChild _ outcome (sibling₁.step step₂)
        (by rw [vmas_setPte]; exact area₁) (by rw [pte_setPte, if_pos ⟨rfl, rfl⟩])
        e.props.readOnly_writable e.props.readOnly_writable ((elsewhere a).trans free₁)
      exact ⟨_, _, cow', rfl, placed.after (step₁.trans step₂) fun b => (elsewhere b).trans
        (same.pte c b), noted'⟩
  · rw [if_neg lowers]
    have locked : e.props.writable = false := by
      by_contra open'
      have writable : e.props.writable = true := by simpa using open'
      rcases shareable with sealed | protects
      · have allowed := inv.leaf.permitted p a e _ parent writable (attrsAt_of_vmaAt area)
        simp [Vma.attrs, sealed] at allowed
      · exact lowers (by simp [protects, writable])
    have placed := inv₁.forkMapChild
      (if protectsParent v then e.props.readOnly else e.props) outcome sibling₁ area₁ parent₁
      locked
      (by split <;> simp [locked]) free₁
    exact ⟨_, _, cow, rfl, placed.after step₁ (same.pte c), noted⟩

/-- A page that nothing else refers to becomes a page of the child, or is let go. -/
theorem Inv.forkInstall (props : PageProps)
    (inv : Inv t seen (k.hold f) s) (unused : Unused s f) (active : Active s c)
    (free : s.pte c a = none) (aligned : Aligned a)
    (home : attrsAt t (s.vmas c) a ≠ none ∨ InSlices (s.procs c) a)
    (own : ¬ SharedArea t (s.vmas c) a) (permitted : props.writable = true →
    ∀ attrs, attrsAt t (s.vmas c) a = some attrs → attrs.flags.writable = true) (mapped :
    Bool) :
    Kept s (Memory.installPage s c a f props mapped).2 ∧
      ForkAt t seen k c a s (Memory.installPage s c a f props mapped).2 := by
  obtain ⟨installed, kept⟩ := inv.installPage free (inv.installFresh props free unused.unmapped
    unused.outside active aligned home own permitted) mapped
  refine ⟨kept, ?_⟩
  cases mapped with
  | true => exact .setChild free installed
  | false => exact .of_refs installed (.releaseManagedPageMapping s f)

theorem Inv.forkCopyPage (inv : Inv t seen k s) (e : Pte)
    (outcome : ForkOutcome) (active : Active s c) (area : vmaAt (s.vmas c) a = some v)
    (aligned : Aligned a) (copied : protectsParent v = false) (free : s.pte c a = none) :
    ForkAt t seen k c a s (forkCopyPage s c v a e outcome).2 := by
  unfold Memory.forkCopyPage
  rcases inv.refs.allocatePage (outcome.page a) with none | ⟨f, s₁, done, same₁, next⟩
  · rw [none]
    exact .refl inv
  rw [done]
  dsimp only
  obtain ⟨inv₁, -⟩ := inv.refsOnly same₁ next
  obtain ⟨inv₂, files⟩ := inv₁.copyToFrame inv₁.fresh.2 0 pageSize (s₁.mem e.frame)
  have step₂ : ForkStep c s (s₁.copyToFrame f 0 pageSize (s₁.mem e.frame)) :=
    (ForkStep.of_refs same₁).trans (.copyToFrame files)
  have leaf₂ : ∀ b, (s₁.copyToFrame f 0 pageSize (s₁.mem e.frame)).pte c b = s.pte c b :=
    fun b => same₁.pte c b
  generalize s₁.copyToFrame f 0 pageSize (s₁.mem e.frame) = s₂ at *
  rcases inv₂.adoptFresh (if v.vmType = .file then .file else .anonymous) (outcome.adopted a) with
    ⟨s₃, refused, same₃, inv₃⟩ | ⟨s₃, adopted, same₃, inv₃, unused⟩
  · rw [refused]
    exact (ForkAt.of_refs inv₃ same₃).after step₂ leaf₂
  rw [adopted]
  have step₃ := step₂.trans (.of_refs same₃)
  have area₃ : vmaAt (s₃.vmas c) a = some v := by rw [step₃.vmas]; exact area
  have own : OwnArea t s₃ c a := ownArea_of_vmaAt area₃ (by
    rintro ⟨type, mode⟩
    simp [protectsParent, type, mode] at copied)
  obtain ⟨-, placed⟩ := inv₃.forkInstall v.vmFlags.access unused
    (step₃.active.mpr active) ((same₃.pte c a).trans ((leaf₂ a).trans free)) aligned
    (.inl own.covered)
    own.private' (by
      intro writable attrs covered
      rw [attrsAt_of_vmaAt area₃] at covered
      cases covered
      exact writable) (outcome.map a)
  exact placed.after step₃ fun b => (same₃.pte c b).trans (leaf₂ b)

theorem Inv.forkPage (inv : Inv t (fun _ => True) k s) (outcome : ForkOutcome)
    (sibling : Sibling s p c) (area : vmaAt (s.vmas p) a = some v) (free : s.pte c a = none)
    (before : ForkStep c first s) (noted : Noted first p cow) :
    ∃ done s' cow', forkPage t s p c v a cow outcome = (done, s', cow') ∧
      ForkAt t (fun _ => True) k c a s s' ∧ Noted first p cow' := by
  unfold Memory.forkPage
  cases parent : s.pte p a with
  | none => exact ⟨true, s, cow, rfl, .refl inv, noted⟩
  | some e =>
    dsimp only
    split
    · exact ⟨true, s, cow, rfl, .refl inv, noted⟩
    split
    · exact ⟨false, s, cow, rfl, .refl inv, noted⟩
    split
    · rename_i shareable
      exact inv.forkSharePage outcome sibling area parent
        (by simpa using shareable) free before noted
    · rename_i copied
      have placed := inv.forkCopyPage e outcome sibling.active
        (by rw [sibling.areas]; exact area) (inv.leaf.aligned p a e parent)
        (by simp only [Bool.or_eq_true, not_or, Bool.not_eq_true] at copied; exact copied.2) free
      exact ⟨_, _, cow, rfl, placed, noted⟩

/-! ## All pages of the areas -/

theorem Inv.forkPages (outcome : ForkOutcome) (pages : List (Vma × Nat)) :
    ∀ {s : Sys} {cow : List ForkCowParentPage}, Inv t (fun _ => True) k s →
      Sibling s p c → (∀ page ∈ pages, vmaAt (s.vmas p) page.2 = some page.1) →
      (pages.map Prod.snd).Nodup → (∀ page ∈ pages, s.pte c page.2 = none) →
      ForkStep c first s →
      Noted first p cow → ∃ done s' cow', forkPages t p c outcome s cow pages =
      (done, s', cow') ∧
        Inv t (fun _ => True) k s' ∧ ForkStep c first s' ∧ Noted first p cow' := by
  induction pages with
  | nil => exact fun {s cow} inv _ _ _ _ before noted => ⟨true, s, cow, rfl, inv, before, noted⟩
  | cons page pages ih =>
    obtain ⟨v, a⟩ := page
    intro s cow inv sibling areas distinct free before noted
    obtain ⟨fresh, distinct'⟩ := nodup_cons.mp distinct
    obtain ⟨done, s₁, cow₁, ran, ⟨inv₁, step, leaf⟩, noted₁⟩ :=
      inv.forkPage outcome sibling (areas (v, a) (.head _)) (free (v, a) (.head _))
        before noted
    unfold Memory.forkPages
    rw [ran]
    cases done with
    | false => exact ⟨false, s₁, cow₁, rfl, inv₁, before.trans step, noted₁⟩
    | true =>
      refine ih inv₁ (sibling.step step) (fun page member => ?_) distinct' (fun page member => ?_)
        (before.trans step) noted₁
      · rw [step.vmas]
        exact areas page (.tail _ member)
      · have other : page.2 ≠ a := by
          rintro rfl
          exact fresh (mem_map.mpr ⟨page, member, rfl⟩)
        rw [leaf page.2 other]
        exact free page (.tail _ member)

theorem flatMap_vmaPages {vmas} (ok : VmasOk vmas)
    (member : page ∈ vmas.flatMap fun v => (vmaPages v).map (v, ·)) :
    vmaAt vmas page.2 = some page.1 := by
  obtain ⟨v, here, inside⟩ := mem_flatMap.mp member
  obtain ⟨a, paged, rfl⟩ := mem_map.mp inside
  have wf := ok.wellFormed v here
  obtain ⟨-, low, high⟩ := (mem_pagesFrom_range wf.startAligned wf.endAligned).mp paged
  exact ok.vmaAt_iff.mpr ⟨here, Vma.covers_iff.mpr ⟨low, high⟩⟩

/-- Areas do not overlap, so that no page is visited twice. -/
theorem flatMap_vmaPages_nodup {vmas} (ok : VmasOk vmas) :
    ((vmas.flatMap fun v => (vmaPages v).map (v, ·)).map Prod.snd).Nodup := by
  have pages : (vmas.flatMap fun v => (vmaPages v).map (v, ·)).map Prod.snd =
      vmas.flatMap vmaPages := by
    rw [map_flatMap]
    congr 1
    funext v
    rw [map_map]
    exact map_id _
  rw [pages, nodup_flatMap]
  refine ⟨fun v _ => pagesFrom_nodup .., ?_⟩
  refine ok.sorted.imp_of_mem fun {v w} here there apart a one two => ?_
  have wf := ok.wellFormed v here
  have wf' := ok.wellFormed w there
  obtain ⟨-, -, high⟩ := (mem_pagesFrom_range wf.startAligned wf.endAligned).mp one
  obtain ⟨-, low, -⟩ := (mem_pagesFrom_range wf'.startAligned wf'.endAligned).mp two
  omega

/-! ## Load slices -/

theorem ForkStep.setProc (files : FileSame s (s.setProc c proc))
    (vmas : proc.vmas = (s.procs c).vmas) (paging : proc.paging = (s.procs c).paging)
    (life : proc.life = (s.procs c).life) (heap : proc.heapbtm = (s.procs c).heapbtm) :
    ForkStep c s (s.setProc c proc) := by
  have here : (s.setProc c proc).procs c = proc := update_self ..
  have pte := pte_setProc_same (s := s) proc paging
  refine ⟨files, fun aliases => aliases.of_pte pte rfl, fun q other => ?_,
    ⟨by rw [here, life], vmas_setProc_same proc vmas c, by rw [here, heap]⟩,
    fun q b _ => .inl (pte q b), rfl, id, fun _ => ⟨rfl, rfl, rfl⟩, fun _ =>
    ⟨rfl, fun _ listed => listed⟩,
    (map_id _).symm⟩
  have there : (s.setProc c proc).procs q = s.procs q := update_of_ne other ..
  rw [there]
  rfl

theorem Inv.forkSlicePages (outcome : ForkOutcome) (pages : List Nat) :
    ∀ {s : Sys}, Inv t seen k s → Active s c → (∀ a ∈ pages, InSlices (s.procs c) a) →
      ∃ done s', forkSlicePages p c outcome s pages = (done, s') ∧ Inv t seen k s' ∧
      ForkStep c s s' := by
  induction pages with
  | nil => exact fun {s} inv _ _ => ⟨true, s, rfl, inv, .refl c s⟩
  | cons a rest ih =>
    intro s inv active sliced
    have later := fun b member => sliced b (mem_cons_of_mem a member)
    unfold Memory.forkSlicePages
    split
    · rename_i e parent free
      rcases inv.refs.allocatePage (outcome.slicePage a) with none |
        ⟨f, s₁, done, same₁, next⟩
      · rw [none]
        exact ⟨false, s, rfl, inv, .refl c s⟩
      rw [done]
      dsimp only
      obtain ⟨inv₁, -⟩ := inv.refsOnly same₁ next
      rcases inv₁.adoptFresh .elf (outcome.sliceAdopted a) with
        ⟨s₂, refused, same₂, inv₂⟩ | ⟨s₂, adopted, same₂, inv₂, unused⟩
      · rw [refused]
        exact ⟨false, s₂, rfl, inv₂, (ForkStep.of_refs same₁).trans (.of_refs same₂)⟩
      rw [adopted]
      dsimp only
      have procs : s₂.procs = s.procs := same₂.procs.trans same₁.procs
      have step₂ : ForkStep c s s₂ := (ForkStep.of_refs same₁).trans (.of_refs same₂)
      have inside : InSlices (s₂.procs c) a := procs ▸ sliced a (.head _)
      have bare : attrsAt t (s₂.vmas c) a = none := inv₂.space.slicesFree c a inside
      have free₂ : s₂.pte c a = none := (same₂.pte c a).trans ((same₁.pte c a).trans free)
      obtain ⟨kept₃, inv₃, step₃, -⟩ :=
        inv₂.forkInstall slicePageProps unused (step₂.active.mpr active) free₂
        (inv.leaf.aligned p a e parent) (.inr inside)
        (by rintro ⟨attrs, covered, -⟩; exact absurd (bare.symm.trans covered) (by simp))
        (fun _ attrs covered => absurd (bare.symm.trans covered) (by simp)) (outcome.sliceMap a)
      have slices₃ :
        ((Memory.installPage s₂ c a f slicePageProps (outcome.sliceMap a)).2.procs c).loadSlices =
          (s₂.procs c).loadSlices := by rw [kept₃.rest c]
      have outside : f ∉ tableFrames
          (Memory.installPage s₂ c a f slicePageProps (outcome.sliceMap a)).2 := by
        rw [step₃.tables]
        exact unused.outside
      generalize Memory.installPage s₂ c a f slicePageProps (outcome.sliceMap a) = result at *
      obtain ⟨mapped, s₃⟩ := result
      dsimp only at inv₃ kept₃ step₃ slices₃ outside
      cases mapped with
      | false => exact ⟨false, s₃, rfl, inv₃, step₂.trans step₃⟩
      | true =>
        dsimp only
        obtain ⟨inv₄, files₄⟩ := inv₃.copyToFrame outside 0 pageSize (s₃.mem e.frame)
        have step₄ := (step₂.trans step₃).trans (ForkStep.copyToFrame files₄)
        have slices₄ : ((s₃.copyToFrame f 0 pageSize (s₃.mem e.frame)).procs c).loadSlices =
            (s.procs c).loadSlices := by
          rw [← procs]
          exact slices₃
        generalize s₃.copyToFrame f 0 pageSize (s₃.mem e.frame) = s₄ at *
        obtain ⟨done, s', ran, last, step⟩ := ih inv₄ (step₄.active.mpr active)
          fun b member => by
            unfold InSlices
            rw [slices₄]
            exact later b member
        exact ⟨done, s', ran, last, step₄.trans step⟩
    · exact ih inv active later

/-- The child takes over a load slice of its parent. -/
theorem Inv.addSlice (inv : Inv t seen k s) (sibling : Sibling s p c)
    (old : slice ∈ (s.procs p).loadSlices) :
    Inv t seen k
      (s.setProc c { s.procs c with loadSlices := (s.procs c).loadSlices ++ [slice] }) ∧
      FileSame s
      (s.setProc c { s.procs c with loadSlices := (s.procs c).loadSlices ++ [slice] }) := by
  have origin :
    ∀ a, InSlices { s.procs c with loadSlices := (s.procs c).loadSlices ++ [slice] } a →
      InSlices (s.procs c) a ∨ InSlices (s.procs p) a := by
    rintro a ⟨other, member, nonempty, page⟩
    cases mem_append.mp member with
    | inl here => exact .inl ⟨other, here, nonempty, page⟩
    | inr new =>
      obtain rfl := mem_singleton.mp new
      exact .inr ⟨other, old, nonempty, page⟩
  refine inv.setProc rfl rfl ?_ ?_ ?_ id
  · intro a e here
    exact (inv.leaf.homed c a e here).imp_right fun ⟨other, member, rest⟩ =>
      ⟨other, mem_append_left _ member, rest⟩
  · intro a inside
    rcases origin a inside with here | there
    · exact inv.space.slicesFree c a here
    · rw [sibling.areas]
      exact inv.space.slicesFree p a there
  · intro a inside
    rcases origin a inside with here | there
    · exact inv.space.slicesLow c a here
    · exact lt_of_lt_of_eq (inv.space.slicesLow p a there) sibling.heap.symm

theorem Inv.forkSlices (outcome : ForkOutcome) (slices : List (Nat × Nat)) :
    ∀ {s : Sys}, Inv t seen k s → Sibling s p c →
      (∀ slice ∈ slices, slice ∈ (s.procs p).loadSlices) →
      ∃ done s', forkSlices p c outcome s slices = (done, s') ∧ Inv t seen k s' ∧
      ForkStep c s s' := by
  induction slices with
  | nil => exact fun {s} inv _ _ => ⟨true, s, rfl, inv, .refl c s⟩
  | cons slice slices ih =>
    intro s inv sibling old
    unfold Memory.forkSlices
    split
    · exact ⟨true, s, rfl, inv, .refl c s⟩
    rename_i used
    dsimp only
    obtain ⟨inv₁, files₁⟩ := inv.addSlice sibling (old slice (.head _))
    have step₁ := ForkStep.setProc files₁ rfl rfl rfl rfl
    have own :
      ((s.setProc c { s.procs c with loadSlices := (s.procs c).loadSlices ++ [slice] }).procs
        c).loadSlices = (s.procs c).loadSlices ++ [slice] := by simp [Sys.setProc]
    generalize s.setProc c { s.procs c with loadSlices := (s.procs c).loadSlices ++ [slice] } =
      s₁ at *
    obtain ⟨done, s₂, ran, inv₂, step₂⟩ :=
      inv₁.forkSlicePages (p := p) outcome (slicePages slice)
      (step₁.active.mpr sibling.active) fun a page =>
        ⟨slice, by rw [own]; simp, used, page⟩
    rw [ran]
    cases done with
    | false => exact ⟨false, s₂, rfl, inv₂, step₁.trans step₂⟩
    | true =>
      have step := step₁.trans step₂
      obtain ⟨done, s', ran', last, step'⟩ :=
          ih inv₂ (sibling.step step) fun other member => by
        rw [step.rest p sibling.other]
        exact old other (.tail _ member)
      exact ⟨done, s', ran', last, step.trans step'⟩

/-! ## A fork that fails -/

theorem LeafInv.fewer (inv : LeafInv t seen s) (sub : ∀ q, seen' q → seen q) :
    LeafInv t seen' s where
  aligned := inv.aligned
  homed := inv.homed
  permitted := inv.permitted
  tables := inv.tables
  sharedLeaf := inv.sharedLeaf
  sharedArea := inv.sharedArea
  exclusive := fun p a e visible here writable =>
    (inv.exclusive p a e (sub p visible) here writable).imp_right fun ⟨outside, only⟩ =>
      ⟨outside, fun q b visibleQ => only q b (sub q visibleQ)⟩

theorem ForkStep.sharedFrame (step : ForkStep c s s') (shared : SharedFrame s f) :
    SharedFrame s' f := by
  obtain ⟨pg, member, frame⟩ := shared
  obtain ⟨g, key, -, pages⟩ := step.pages
  exact ⟨g pg, by rw [pages]; exact mem_map_of_mem member, (key pg).2.2.trans frame⟩

theorem ForkStep.frame (step : ForkStep c s s') (other : q ≠ c)
    (mapped : leafFrame s' (q, b) = some f) : leafFrame s (q, b) = some f := by
  obtain ⟨e, here, rfl⟩ := Option.map_eq_some_iff.mp mapped
  obtain ⟨e', was, same, -⟩ := step.old other here
  exact same ▸ leafFrame_eq_some was

/-- A leaf of the parent is again what it was at first. -/
theorem Inv.restoreLeaf (start : Inv t (fun _ => True) k' first)
    (inv : Inv t (· ≠ c) k s) (step : ForkStep c first s)
    (was : first.pte p a = some ⟨f, props⟩) (here : s.pte p a = some ⟨f, now⟩) :
    Inv t (· ≠ c) k (s.setPte p a (some ⟨f, props⟩)) ∧
      FileSame s (s.setPte p a (some ⟨f, props⟩)) := by
  have frames : leafFrame (s.setPte p a (some ⟨f, props⟩)) = leafFrame s := by
    rw [leafFrame_setPte]
    exact update_eq_self_iff.mpr (leafFrame_eq_some here).symm
  have ok := inv.leafOk here
  refine inv.setLeaf (inv.refs.congr frames (Perm.refl _) rfl rfl) (inv.space.active here)
    ⟨ok.aligned, ok.homed, ?_, fun pg member frame => ⟨(ok.shared pg member frame).1, ?_⟩,
    ok.area⟩ ?_ ?_
  · intro writable attrs covered
    rw [step.vmas] at covered
    exact start.leaf.permitted p a _ attrs was writable covered
  · intro writable
    obtain ⟨g, key, keeps, pages⟩ := step.pages
    rw [pages] at member
    obtain ⟨old, there, rfl⟩ := mem_map.mp member
    obtain ⟨dirty, listed⟩ :=
      start.table.dirty p a _ was writable old there ((key old).2.2.symm.trans frame)
    exact ⟨(keeps old).1.trans dirty, (keeps old).2 _ listed⟩
  · intro _ writable
    refine (start.leaf.exclusive p a _ trivial was writable).imp step.sharedFrame
      fun ⟨outside, only⟩ => ?_
    exact ⟨step.tables ▸ outside,
      fun q b otherQ mapped => only q b trivial (step.frame otherQ mapped)⟩
  · intro q b e otherQ elsewhere mapped writable frame
    obtain ⟨e', old, -, same⟩ := step.old otherQ mapped
    obtain rfl := same writable
    rcases start.leaf.exclusive q b e' trivial old writable with shared | ⟨-, only⟩
    · exact .inl (step.sharedFrame (frame ▸ shared))
    · obtain ⟨rfl, rfl⟩ := only p a trivial (frame ▸ leafFrame_eq_some was)
      exact absurd ⟨rfl, rfl⟩ elsewhere

theorem ForkStep.restoreLeaf (step : ForkStep c first s)
    (was : first.pte p a = some ⟨f, props⟩) (here : s.pte p a = some ⟨f, props.readOnly⟩)
    (files : FileSame s (s.setPte p a (some ⟨f, props⟩))) :
    ForkStep c first (s.setPte p a (some ⟨f, props⟩)) where
  files := step.files.trans files
  aliases := fun inv => (step.aliases inv).of_leaves
    (fun _ _ leaf => leaf.setPte here fun present user => ⟨present, user⟩) rfl
  rest := fun q otherQ => (step.rest q otherQ).trans (.setPte s p a _ q)
  own := by
    have same := SameProc.setPte s p a (some ⟨f, props⟩) c
    unfold Sys.vmas
    rw [same]
    exact step.own
  leaf := by
    intro q b otherQ
    rw [pte_setPte]
    split
    · rename_i same
      exact .inl (by rw [same.1, same.2]; exact was.symm)
    · exact step.leaf q b otherQ
  cache := step.cache
  pages := step.pages

theorem Inv.restoreParent (start : Inv t (fun _ => True) k' first)
    (restore : Nat → Bool) (cow : List ForkCowParentPage) :
    ∀ {s : Sys}, Inv t (· ≠ c) k s → ForkStep c first s → Noted first p cow →
      Inv t (· ≠ c) k (restoreParent p restore s cow) ∧
      ForkStep c first (restoreParent p restore s cow) := by
  induction cow with
  | nil => exact fun inv step _ => ⟨inv, step⟩
  | cons page cow ih =>
    intro s inv step noted
    have was := noted page (.head _)
    have later : Noted first p cow := fun other member => noted other (.tail _ member)
    unfold Memory.restoreParent
    cases here : s.pte p page.address with
    | none => exact ih inv step later
    | some e =>
      dsimp only
      split
      · rename_i same
        obtain ⟨f, now⟩ := e
        obtain ⟨rfl, rfl, -⟩ := same
        obtain ⟨inv₁, files⟩ := start.restoreLeaf inv step was here
        exact ih inv₁ (step.restoreLeaf was here files) later
      · exact ih inv step later

theorem ForkStep.ended (step : ForkStep c first s) (ended : Ended t c s s') :
    Ended t c first s' where
  files := step.files.trans ended.files
  life := fun q other => (ended.life q other).trans step.life
  dead := ended.dead
  areas := fun q a => by
    rw [← step.vmas]
    exact ended.areas q a

theorem Inv.discardChild (start : Inv t (fun _ => True) k' first)
    (inv : Inv t (fun _ => True) k s) (step : ForkStep c first s)
    (noted : Noted first p cow) (active : Active s c) (outcome : ForkOutcome) :
    ∃ leaked', Inv t (fun _ => True)
      { k with leaked := leaked' } (discardChild t s p c cow true outcome) ∧
      Ended t c first (discardChild t s p c cow true outcome) ∧
      (outcome.teardown.Succeeds → leaked' = k.leaked ∧
        (AliasInv [] first → AliasInv [] (discardChild t s p c cow true outcome))) := by
  unfold Memory.discardChild
  have narrowed : Inv t (· ≠ c) k s :=
    { inv with leaf := inv.leaf.fewer fun _ _ => trivial }
  obtain ⟨unpinned, files⟩ := narrowed.unpin (s.pins.filter (·.process != c))
  change Inv t _ _ (unpinExecutableImage s c) at unpinned
  change FileSame s (unpinExecutableImage s c) at files
  have step₁ : ForkStep c first (unpinExecutableImage s c) :=
    step.trans (.of_kept (.of_procs files rfl fun pg member => .inr ⟨pg, member, rfl, rfl⟩)
      (fun _ _ _ => .inl rfl) rfl rfl)
  obtain ⟨inv₂, step₂⟩ := start.restoreParent outcome.restore cow unpinned step₁ noted
  generalize Memory.restoreParent p outcome.restore (unpinExecutableImage s c) cow = s₂ at *
  have active₂ : Active s₂ c := step₂.active.mpr (step.active.mp active)
  obtain ⟨inv₃, shrunk, clean⟩ := inv₂.releaseSpace active₂ outcome.teardown
  dsimp only
  rw [if_pos rfl]
  generalize Memory.releaseSpace t s₂ c outcome.teardown = s₃ at *
  obtain ⟨leaked', last, ended, kept⟩ := inv₃.endProcess c fun _ otherQ (_ : True) => otherQ
  exact ⟨leaked', last, step₂.ended (shrunk.ended ended),
      fun sound => ⟨kept (clean sound), fun aliases =>
    (destroyProcess_clean (clean sound)).2 (shrunk.aliases (step₂.aliases aliases))⟩⟩

/-! ## The areas of the child -/

/-- Where an area lies and what is in it. -/
def Vma.span (v : Vma) : Nat × Nat × VmaType := (v.vmStart, v.vmEnd, v.vmType)

/-- The areas of the child are those of the parent, with or without their files. -/
structure Inherits (t : Target) (vmas cloned : List Vma) : Prop where
  spans : cloned.map Vma.span = vmas.map Vma.span
  bounded : (∀ v ∈ vmas, v.Bounded t) → ∀ w ∈ cloned, w.Bounded t

theorem span_withoutFile (v : Vma) : (withoutFile v).span = v.span := by
  unfold withoutFile
  split <;> rfl

theorem bounded_withoutFile (fits : v.Bounded t) : (withoutFile v).Bounded t := by
  unfold withoutFile
  split
  · intro backed
    simp [Vma.fileBacked] at backed
  · exact fits

namespace Inherits

theorem cons {vmas cloned} (first : w = v ∨ w = withoutFile v) (rest : Inherits t vmas cloned) :
    Inherits t (v :: vmas) (w :: cloned) := by
  refine ⟨?_, fun fits => ?_⟩
  · rw [map_cons, map_cons, rest.spans]
    rcases first with rfl | rfl
    · rfl
    · rw [span_withoutFile]
  · obtain ⟨here, later⟩ := forall_mem_cons.mp fits
    refine forall_mem_cons.mpr ⟨?_, rest.bounded later⟩
    rcases first with rfl | rfl
    · exact here
    · exact bounded_withoutFile here

theorem withoutFiles (vmas : List Vma) : Inherits t vmas (vmas.map withoutFile) := by
  induction vmas with
  | nil => exact ⟨rfl, fun _ => by simp⟩
  | cons v vmas ih => exact .cons (.inr rfl) ih

theorem member {vmas cloned} (inherits : Inherits t vmas cloned) (here : w ∈ cloned) :
    ∃ v ∈ vmas, v.vmStart = w.vmStart ∧ v.vmEnd = w.vmEnd ∧ v.vmType = w.vmType := by
  obtain ⟨v, there, same⟩ := mem_map.mp (inherits.spans ▸ mem_map_of_mem here)
  exact ⟨v, there, congrArg (·.1) same, congrArg (·.2.1) same, congrArg (·.2.2) same⟩

theorem vmasOk {vmas cloned} (inherits : Inherits t vmas cloned) (ok : VmasOk vmas) :
    VmasOk cloned := by
  refine ⟨fun w here => ?_, ?_⟩
  · obtain ⟨v, there, start, stop, -⟩ := inherits.member here
    obtain ⟨startAligned, endAligned, nonempty⟩ := ok.wellFormed v there
    exact ⟨start ▸ startAligned, stop ▸ endAligned, start ▸ stop ▸ nonempty⟩
  · have sorted : (cloned.map Vma.span).Pairwise fun a b => a.2.1 ≤ b.1 := by
      rw [inherits.spans, pairwise_map]
      exact ok.sorted
    exact pairwise_map.mp sorted

end Inherits

theorem cloneFiles_inherits (clone : Nat → Bool) (vmas : List Vma) :
    ∀ i, Inherits t vmas (cloneFiles clone i vmas).2 := by
  induction vmas with
  | nil => exact fun _ => .withoutFiles []
  | cons v vmas ih =>
    intro i
    unfold cloneFiles
    split
    · exact .cons (.inr rfl) (.withoutFiles vmas)
    · refine .cons ?_ (ih (i + 1))
      split
      · exact .inl rfl
      · exact .inr rfl

theorem withoutFile_unbacked (unbacked : ¬ v.fileBacked = true) : withoutFile v = v := by
  unfold withoutFile
  split
  · rename_i type
    have none : v.vfile = none := by simpa [Vma.fileBacked, type] using unbacked
    rw [← none]
  · rfl

theorem cloneFiles_done (clone : Nat → Bool) (vmas : List Vma) :
    ∀ {i : Nat}, (cloneFiles clone i vmas).1 = true → (cloneFiles clone i vmas).2 = vmas := by
  induction vmas with
  | nil => exact fun _ => rfl
  | cons v vmas ih =>
    intro i
    unfold cloneFiles
    split
    · exact fun done => absurd done (by simp)
    · intro done
      dsimp only at done ⊢
      rw [ih done]
      split
      · rfl
      · rename_i unbacked
        rw [withoutFile_unbacked unbacked]

/-- The child has no leaf yet; its areas are those of the parent. -/
theorem Inv.childAreas (inv : Inv t seen k s) (vmas : List Vma) (active : Active s c)
    (empty : ∀ a, s.pte c a = none) (unsliced : (s.procs c).loadSlices = [])
    (inherits : Inherits t (s.vmas p) vmas) :
    Inv t seen k (s.setVmas c vmas) ∧ FileSame s (s.setVmas c vmas) := by
  have ok := inherits.vmasOk (inv.space.areas p)
  refine inv.setVmas active ok (inherits.bounded (inv.space.bounded p))
    (fun a attrs covered => ?_) ?_ ?_
  · rw [attrsAt_eq] at covered
    obtain ⟨w, here, rfl⟩ := Option.map_eq_some_iff.mp covered
    obtain ⟨member, inside⟩ := ok.vmaAt_iff.mp here
    obtain ⟨v, there, start, stop, type⟩ := inherits.member member
    have old : vmaAt (s.vmas p) a = some v := (inv.space.areas p).vmaAt_iff.mpr ⟨there, by
      rw [Vma.covers_iff, start, stop]
      exact Vma.covers_iff.mp inside⟩
    obtain ⟨physical, low⟩ := inv.space.plain p a _ (attrsAt_of_vmaAt old)
    exact ⟨fun device => physical (type.trans device), low⟩
  · rintro a ⟨slice, member, -⟩
    rw [unsliced] at member
    exact absurd member not_mem_nil
  · intro a e here
    exact absurd ((empty a).symm.trans here) (by simp)

theorem Inv.bear (inv : Inv t seen k s) (inactive : ¬ Active s c) (proc : Proc)
    (life : proc.life = .live ∨ proc.life = .building) (vmas : proc.vmas = [])
    (paging : proc.paging = fun _ => none) (low : ∀ a, InSlices proc a → a < proc.heapbtm) :
    Inv t seen k (s.setProc c proc) ∧ FileSame s (s.setProc c proc) ∧
      (AliasInv [] s → AliasInv [] (s.setProc c proc)) := by
  obtain ⟨bare, unmapped⟩ := inv.space.gone c inactive
  have same : proc.paging = (s.procs c).paging := paging.trans (funext fun a => (unmapped a).symm)
  obtain ⟨born, files⟩ := inv.setProc (vmas.trans bare.symm) same
    (fun a e here => absurd ((unmapped a).symm.trans here) (by simp))
    (fun a _ => by rw [bare]; rfl) low fun idle => absurd life idle
  exact ⟨born, files, fun aliases => aliases.of_pte (pte_setProc_same proc same) rfl⟩

/-- What a fork does to the rest of the machine. -/
structure Forked (t : Target) (c : Nat) (s s' : Sys) : Prop where
  files : FileSame s s'
  life : ∀ q, q ≠ c → (s'.procs q).life = (s.procs q).life
  settled : (s'.procs c).life ≠ .building
  mode : ModeInv t s → ModeInv t s'

/-- The child exists and has no leaf; nothing else has changed. -/
structure Prepared (p c : Nat) (s s' : Sys) : Prop where
  files : FileSame s s'
  aliases : AliasInv [] s → AliasInv [] s'
  others : ∀ q, q ≠ c → s'.procs q = s.procs q
  building : (s'.procs c).life = .building
  heap : (s'.procs c).heapbtm = (s.procs p).heapbtm
  empty : ∀ a, s'.pte c a = none
  unsliced : (s'.procs c).loadSlices = []

namespace Prepared

theorem active (prepared : Prepared p c s s') : Active s' c := .inr prepared.building

theorem areas (prepared : Prepared p c s s') (other : q ≠ c) : s'.vmas q = s.vmas q := by
  unfold vmas
  rw [prepared.others q other]

theorem setVmas (prepared : Prepared p c s s') {vmas} (files : FileSame s' (s'.setVmas c vmas)) :
    Prepared p c s (s'.setVmas c vmas) where
  files := prepared.files.trans files
  aliases := fun inv => (prepared.aliases inv).setVmas c vmas
  others := by
    intro q other
    rw [procs_setVmas, if_neg other]
    exact prepared.others q other
  building := (life_setVmas s' c vmas c).trans prepared.building
  heap := by
    rw [procs_setVmas]
    exact prepared.heap
  empty := fun a => (pte_setVmas ..).trans (prepared.empty a)
  unsliced := by
    rw [procs_setVmas]
    exact prepared.unsliced

theorem discarded (prepared : Prepared p c s mid) (ended : Ended t c mid s')
    (space : SpaceInv t s') : Forked t c s s' := by
  refine ⟨prepared.files.trans ended.files, fun q other => ?_, by rw [ended.dead]; decide,
      fun mode =>
    mode.of_areas fun q a => ?_⟩
  · rw [ended.life q other, prepared.others q other]
  · by_cases same : q = c
    · have dead : ¬ Active s' c := by
        unfold Active
        rw [ended.dead]
        decide
      rw [same, (space.gone c dead).1]
      exact .inr rfl
    · rw [← prepared.areas same]
      exact ended.areas q a

end Prepared

theorem Inv.forkStart (inv : Inv t seen k s) (other : p ≠ c)
    (unborn : (s.procs c).life = .unborn) :
    Inv t seen k (forkStart s p c) ∧ Prepared p c s (forkStart s p c) := by
  have inactive : ¬ Active s c := by
    unfold Active
    rw [unborn]
    decide
  have born :=
    inv.bear inactive { Proc.empty .building with heapbtm := (s.procs p).heapbtm } (.inr rfl)
    rfl rfl (by rintro a ⟨slice, member, -⟩; exact absurd member not_mem_nil)
  have here : (s.setProc c { Proc.empty .building with heapbtm := (s.procs p).heapbtm }).procs c =
      { Proc.empty .building with heapbtm := (s.procs p).heapbtm } := update_self ..
  have start : Memory.forkStart s p c =
      (s.setProc c { Proc.empty .building with heapbtm := (s.procs p).heapbtm }).setVmas c
        ((s.vmas p).map withoutFile) := by
    unfold Memory.forkStart Sys.setVmas
    rw [here]
    simp [Sys.setProc]
  have prepared : Prepared p c s
      (s.setProc c { Proc.empty .building with heapbtm := (s.procs p).heapbtm }) :=
    ⟨born.2.1, born.2.2, fun q otherQ => update_of_ne otherQ .., by rw [here]; rfl, by rw [here],
      fun a => by unfold pte; rw [here]; rfl, by rw [here]; rfl⟩
  rw [start]
  generalize s.setProc c { Proc.empty .building with heapbtm := (s.procs p).heapbtm } = s₁ at *
  obtain ⟨inv₂, files₂⟩ :=
    born.1.childAreas (p := p) ((s.vmas p).map withoutFile) prepared.active
    prepared.empty prepared.unsliced (by rw [prepared.areas other]; exact Inherits.withoutFiles _)
  exact ⟨inv₂, prepared.setVmas files₂⟩

theorem forkDevices_plain (lib : PagingLibrary) (outcome : ForkOutcome) (vmas : List Vma)
    (plain : ∀ v ∈ vmas, v.vmType ≠ .device) :
    forkDevices lib t p c outcome s vmas = (true, s) := by
  induction vmas with
  | nil => rfl
  | cons v vmas ih =>
    unfold forkDevices
    rw [if_pos (plain v (.head _))]
    exact ih fun w member => plain w (.tail _ member)

theorem Inv.publish (inv : Inv t seen k s) (pins : List ExecutableImagePin) (c : Nat) (proc : Proc)
    (life : proc.life = .live) (vmas : proc.vmas = (s.procs c).vmas)
    (paging : proc.paging = (s.procs c).paging) (slices : proc.loadSlices = (s.procs c).loadSlices)
    (heap : proc.heapbtm = (s.procs c).heapbtm) :
    Inv t seen k ({ s with pins }.setProc c proc) ∧
      FileSame s ({ s with pins }.setProc c proc) ∧
      (AliasInv [] s → AliasInv [] ({ s with pins }.setProc c proc)) ∧
      (∀ q, ({ s with pins }.setProc c proc).vmas q = s.vmas q) ∧
      (∀ q, q ≠ c → (({ s with pins }.setProc c proc).procs q).life = (s.procs q).life) ∧
      (({ s with pins }.setProc c proc).procs c).life = .live := by
  obtain ⟨inv₁, files₁⟩ := inv.unpin pins
  have inside : ∀ a, InSlices proc a ↔ InSlices (s.procs c) a := by
    unfold InSlices
    rw [slices]
    exact fun _ => Iff.rfl
  have published : Inv t seen k ({ s with pins }.setProc c proc) ∧
      FileSame { s with pins } ({ s with pins }.setProc c proc) :=
    inv₁.setProc vmas paging
      (fun a e here => (inv.leaf.homed c a e here).imp_right (inside a).mpr)
      (fun a member => inv.space.slicesFree c a ((inside a).mp member))
      (fun a member => heap ▸ inv.space.slicesLow c a ((inside a).mp member))
      fun idle => absurd (.inl life) idle
  refine ⟨published.1, files₁.trans published.2, fun aliases => aliases.of_pte
    (pte_setProc_same (s := { s with pins }) proc paging) rfl,
    vmas_setProc_same (s := { s with pins }) proc vmas,
    fun q other => congrArg Proc.life (update_of_ne other ..), ?_⟩
  exact (congrArg Proc.life (update_self ..)).trans life

theorem Inv.forkFails
    (start : Inv t (fun _ => True) k' first) (prepared : Prepared p c s first)
    (inv : Inv t (fun _ => True) k s') (step : ForkStep c first s')
    (noted : Noted first p cow) (outcome : ForkOutcome) :
    ∃ leaked', Inv t (fun _ => True) { k with leaked := leaked' }
        (Memory.discardChild t s' p c cow true outcome) ∧
        Forked t c s (Memory.discardChild t s' p c cow true outcome) ∧
      (outcome.teardown.Succeeds → leaked' = k.leaked ∧
        (AliasInv [] s → AliasInv [] (Memory.discardChild t s' p c cow true outcome))) := by
  obtain ⟨leaked', last, ended, sound⟩ := start.discardChild inv step noted
    (step.active.mpr prepared.active) outcome
  exact ⟨leaked', last, prepared.discarded ended last.space, fun succeeds =>
    ⟨(sound succeeds).1, fun aliases => (sound succeeds).2 (prepared.aliases aliases)⟩⟩

theorem Inv.createFork (inv : Inv t (fun _ => True) k s) (lib : PagingLibrary)
    (live : (s.procs p).life = .live) (unborn : (s.procs c).life = .unborn)
    (outcome : ForkOutcome) :
    ∃ leaked', Inv t (fun _ => True)
      { k with leaked := leaked' } (createFork lib t s p c outcome).2 ∧
      Forked t c s (createFork lib t s p c outcome).2 ∧
      (outcome.teardown.Succeeds → leaked' = k.leaked ∧
        (AliasInv [] s → AliasInv [] (createFork lib t s p c outcome).2)) := by
  have other : p ≠ c := by
    rintro rfl
    exact absurd (live.symm.trans unborn) (by decide)
  unfold Memory.createFork
  split
  · exact ⟨k.leaked, inv, ⟨.refl s, fun _ _ => rfl, by rw [unborn]; decide, id⟩,
      fun _ => ⟨rfl, id⟩⟩
  dsimp only
  rw [forkDevices_plain lib outcome (s.vmas p) fun v member => inv.space.not_device member]
  dsimp only
  obtain ⟨inv₁, prepared₁⟩ := inv.forkStart other unborn
  have inherits := cloneFiles_inherits (t := t) outcome.clone (s.vmas p) 0
  have whole := cloneFiles_done outcome.clone (s.vmas p) (i := 0)
  generalize cloneFiles outcome.clone 0 (s.vmas p) = result at *
  obtain ⟨done, cloned⟩ := result
  dsimp only at inherits whole
  obtain ⟨inv₂, files₂⟩ :=
    inv₁.childAreas (p := p) cloned prepared₁.active prepared₁.empty
    prepared₁.unsliced (by rw [prepared₁.areas other]; exact inherits)
  have prepared := prepared₁.setVmas files₂
  have areas : ((Memory.forkStart s p c).setVmas c cloned).vmas c = cloned := by
    rw [vmas_setVmas, if_pos rfl]
  have unnoted : Noted ((Memory.forkStart s p c).setVmas c cloned) p [] :=
    fun page member => absurd member not_mem_nil
  cases done with
  | false => exact inv₂.forkFails prepared inv₂ (.refl c _) unnoted outcome
  | true =>
    dsimp only
    obtain rfl := whole rfl
    generalize (Memory.forkStart s p c).setVmas c (s.vmas p) = first at *
    have sibling : Sibling first p c :=
      ⟨other, prepared.active, by rw [areas, prepared.areas other], by
        rw [prepared.heap, prepared.others p other]⟩
    obtain ⟨done, s₃, cow, ran, inv₃, step₃, noted⟩ := inv₂.forkPages outcome
      ((s.vmas p).flatMap fun v => (vmaPages v).map (v, ·)) sibling (by
        rw [prepared.areas other]
        exact fun page member => flatMap_vmaPages (inv.space.areas p) member)
      (flatMap_vmaPages_nodup (inv.space.areas p)) (fun page _ => prepared.empty page.2)
      (.refl c first) unnoted
    rw [ran]
    cases done with
    | false => exact inv₂.forkFails prepared inv₃ step₃ noted outcome
    | true =>
      dsimp only
      obtain ⟨done, s₄, ran', inv₄, step₄⟩ :=
        inv₃.forkSlices outcome (s₃.procs p).loadSlices
        (sibling.step step₃) fun _ member => member
      rw [ran']
      have step := step₃.trans step₄
      cases done with
      | false => exact inv₂.forkFails prepared inv₄ step noted outcome
      | true =>
        dsimp only
        split
        · exact inv₂.forkFails prepared inv₄ step noted outcome
        · obtain ⟨last, files, listed, areas₄, life, live'⟩ := inv₄.publish
            (cloneExecutableImagePin s₄ p c).pins c { s₄.procs c with
              life := .live, files := (s₄.procs p).files } rfl rfl rfl rfl rfl
          change Inv t _ _ ((cloneExecutableImagePin s₄ p c).setProc c { s₄.procs c with
            life := .live, files := (s₄.procs p).files }) at last
          refine ⟨k.leaked, last,
            ⟨(prepared.files.trans step.files).trans files, fun q otherQ => ?_,
            fun building => absurd (live'.symm.trans building) (by decide),
            fun mode q a attrs covered => ?_⟩, fun _ => ⟨rfl, fun aliases =>
              listed (step.aliases (prepared.aliases aliases))⟩⟩
          · rw [← prepared.others q otherQ, ← step.life]
            exact life q otherQ
          · have old : attrsAt t (s₄.vmas q) a = some attrs := areas₄ q ▸ covered
            rw [step.vmas] at old
            by_cases same : q = c
            · rw [same, areas] at old
              exact mode p a attrs old
            · rw [prepared.areas same] at old
              exact mode q a attrs old

end Fork

end Mecocoa.Memory
