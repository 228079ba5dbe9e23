import Mecocoa.Memory.FaultInv
import Mecocoa.Memory.SpaceRuns

/-! # Releasing areas keeps the invariant

The leaves of an unmapped range are taken out with their references, the areas
are cut, the aliases struck off and the references given back, in this order.
What is left behind in between is held by the call.
-/

namespace Mecocoa.Memory

open List Nat

/-- The leaves of `p` at the addresses are gone and nothing else has changed. -/
structure LeavesTaken (p : Nat) (addresses : List Nat) (s s' : Sys) : Prop where
  others : s' = { s with procs := s'.procs }
  rest : ∀ q, SameProc (s.procs q) (s'.procs q)
  leaf : ∀ q b, s'.pte q b = if q = p ∧ b ∈ addresses then none else s.pte q b

section Unmap

variable {s s' : Sys} {k : Tokens}

theorem LeavesTaken.nil (p : Nat) (s : Sys) : LeavesTaken p [] s s :=
  ⟨rfl, fun _ => rfl, fun q b => by simp⟩

theorem LeavesTaken.cons
    (rest : LeavesTaken p addresses (s.setPte p a none) s') :
    LeavesTaken p (a :: addresses) s s' where
  others := by
    rw [rest.others]
    rfl
  rest := fun q => (SameProc.setPte s p a none q).trans (rest.rest q)
  leaf := by
    intro q b
    rw [rest.leaf, Sys.pte_setPte]
    by_cases same : q = p
    · by_cases here : b = a
      · simp [same, here]
      · simp [same, here]
    · simp [same]

theorem LeavesTaken.shared (taken : LeavesTaken p addresses s s') : s'.shared = s.shared := by
  rw [taken.others]

theorem LeavesTaken.vmas (taken : LeavesTaken p addresses s s') (q : Nat) :
    s'.vmas q = s.vmas q := by
  unfold Sys.vmas
  rw [taken.rest q]

/-! ## The plan -/

theorem Inv.frames_ne_zero (inv : Inv t seen k s) (here : s.pte p a = some e) : e.frame ≠ 0 := by
  have managed := inv.refs.leafManaged (p, a) e.frame (leafFrame_eq_some here)
  exact (inv.refs.balanced e.frame).nonzero ((inv.refs.owned e.frame).mpr (.inl managed))

theorem SpaceInv.not_device (inv : SpaceInv t s) (member : v ∈ s.vmas p) :
    v.vmType ≠ .device := by
  have wf := (inv.areas p).wellFormed v member
  have here :=
    (inv.areas p).vmaAt_iff.mpr ⟨member, Vma.covers_iff.mpr ⟨le_refl _, wf.nonempty⟩⟩
  exact (inv.plain p v.vmStart _ (attrsAt_of_vmaAt here)).1

theorem SpaceInv.deviceRanges_nil (inv : SpaceInv t s) (p address endAddr : Nat) :
    deviceRanges address endAddr (s.vmas p) = [] := by
  unfold deviceRanges
  rw [map_eq_nil_iff, filter_eq_nil_iff]
  intro v member
  simp [inv.not_device member]

theorem Inv.flushItems (p : Nat) (force : Bool) (flush : Nat → FlushOutcome)
    (items : List ReleaseItem) :
    ∀ {s : Sys}, Inv t seen k s → Inv t seen k (flushItems t p force flush s items).2 ∧
        Kept s (flushItems t p force flush s items).2 := by
  induction items with
  | nil => exact fun inv => ⟨inv, .refl _⟩
  | cons item items ih =>
    intro s inv
    unfold Memory.flushItems
    split
    · exact ih inv
    · obtain ⟨flushed, s₁, done, inv₁, files₁, only₁, -⟩ :=
        inv.flushSharedFilePage item.sharedIdentity
        item.fileOffset (flush item.address)
      have kept₁ := Kept.of_flushOnly files₁ only₁
      rw [done]
      dsimp only
      split
      · exact ⟨(ih inv₁).1, kept₁.trans (ih inv₁).2⟩
      · exact ⟨inv₁, kept₁⟩

/-- The plan lists every page of the range that an area covers. -/
theorem mem_unmapItems {p address length} (ok : VmasOk (s.vmas p))
    (low : Aligned address) (high : Aligned (address + length)) (aligned : Aligned a)
    (inside : address ≤ a ∧ a < address + length) (here : vmaAt (s.vmas p) a = some v) :
    (⟨a, t.wrap (v.fileOffset + (a - v.vmStart)), sharedIdentity v, v.vmType != .device⟩ :
      ReleaseItem) ∈
      unmapItems t s p address length := by
  obtain ⟨member, covered⟩ := ok.vmaAt_iff.mp here
  have wf := ok.wellFormed v member
  have range := Vma.covers_iff.mp covered
  refine mem_flatMap.mpr ⟨v, member, mem_map.mpr ⟨a, ?_, rfl⟩⟩
  refine (mem_pagesFrom_range ?_ ?_).mpr ⟨aligned, by omega, by omega⟩
  · rcases le_total address v.vmStart with below | above
    · rw [max_eq_right below]
      exact wf.startAligned
    · rw [max_eq_left above]
      exact low
  · rcases le_total (address + length) v.vmEnd with below | above
    · rw [min_eq_left below]
      exact high
    · rw [min_eq_right above]
      exact wf.endAligned

theorem unmapItems_area {p address length} (ok : VmasOk (s.vmas p))
    (member : item ∈ unmapItems t s p address length) :
    (address ≤ item.address ∧ item.address < address + length) ∧
      ∃ v, vmaAt (s.vmas p) item.address = some v ∧ item.sharedIdentity = sharedIdentity v ∧
        item.fileOffset = t.wrap (v.fileOffset + (item.address - v.vmStart)) := by
  obtain ⟨v, inVmas, planned⟩ := mem_flatMap.mp member
  obtain ⟨a, page, rfl⟩ := mem_map.mp planned
  obtain ⟨i, small, rfl⟩ := mem_pagesFrom.mp page
  unfold pageSize at *
  refine ⟨by dsimp only; omega, v, ok.vmaAt_iff.mpr ⟨inVmas, Vma.covers_iff.mpr ?_⟩, rfl,
    rfl⟩
  dsimp only
  omega

/-! ## Taking leaves -/

theorem unmapLeaves_spec (p : Nat) (decode unmap : Nat → Bool) (items : List ReleaseItem) :
    ∀ {s : Sys} {k : Tokens}, Inv t seen k s →
      ∃ done s' taken, unmapLeaves p decode unmap s items = (done, s', taken) ∧
        Inv t seen { k with held := taken.map (·.2.frame) ++ k.held } s' ∧ FileSame s s' ∧
        LeavesTaken p (taken.map (·.1.address)) s s' ∧
        (∀ entry ∈ taken, entry.1 ∈ items) ∧
        (done = true → ∀ item ∈ items, item.releasePhysical = true →
          s'.pte p item.address = none) := by
  induction items with
  | nil => exact fun {s} _ inv => ⟨true, s, [], rfl, inv, .refl s, .nil p s, by simp, by simp⟩
  | cons item items ih =>
    intro s k inv
    unfold unmapLeaves
    cases here : s.pte p item.address with
    | none =>
      obtain ⟨done, s', taken, ran, inv', files, leaves, planned, gone⟩ := ih inv
      refine ⟨done, s', taken, ran, inv', files, leaves,
        fun entry member => mem_cons_of_mem _ (planned entry member),
        fun succeeded => forall_mem_cons.mpr ⟨fun _ => ?_, gone succeeded⟩⟩
      rw [leaves.leaf]
      split
      · rfl
      · exact here
    | some e =>
      dsimp only
      split
      · rename_i device
        obtain ⟨done, s', taken, ran, inv', files, leaves, planned, gone⟩ := ih inv
        refine ⟨done, s', taken, ran, inv', files, leaves,
          fun entry member => mem_cons_of_mem _ (planned entry member),
          fun succeeded => forall_mem_cons.mpr ⟨fun physical => ?_, gone succeeded⟩⟩
        simp [physical] at device
      split
      · exact ⟨false, s, [], rfl, inv, .refl s, .nil p s, by simp, by simp⟩
      · obtain ⟨removed, files₁⟩ := inv.remove here
        obtain ⟨done, s', taken, ran, inv', files, leaves, planned, gone⟩ := ih removed
        rw [ran]
        have all := leaves.cons
        refine ⟨done, s', (item, e) :: taken, rfl, ?_, files₁.trans files, all, ?_, ?_⟩
        · exact ⟨inv'.refs.perm_held perm_middle.symm, inv'.leaf, inv'.space, inv'.table,
            inv'.content⟩
        · exact forall_mem_cons.mpr
            ⟨.head _, fun entry later => mem_cons_of_mem _ (planned entry later)⟩
        · refine fun succeeded => forall_mem_cons.mpr ⟨fun _ => ?_, gone succeeded⟩
          rw [all.leaf, if_pos ⟨rfl, by simp⟩]

/-! ## Striking aliases off -/

/-- Where the item lists an alias of a shared page, it has the key of that page. -/
def KeyedBy (p : Nat) (s : Sys) (item : ReleaseItem) : Prop :=
  ∀ pg ∈ s.shared, (p, item.address) ∈ pg.aliases → item.sharedIdentity = pg.identity ∧
  item.fileOffset = pg.fileOffset

theorem AliasInv.strike
    (inv : AliasInv ((p, a) :: gone) s) (table : TableInv s)
    (keyed : ∀ pg ∈ s.shared, (p, a) ∈ pg.aliases → identity = pg.identity ∧
      fileOffset = pg.fileOffset) :
    AliasInv gone (unregisterSharedFileAlias s identity fileOffset p a).2 := by
  have other : ∀ pg ∈ s.shared, ∀ l ∈ pg.aliases, l ≠ (p, a) → l ∉ gone →
      UserLeaf s l pg.physicalAddress := by
    intro pg member l listed different stays
    exact inv.leaf pg member l listed fun inGone => by
      cases mem_cons.mp inGone with
      | inl same => exact different same
      | inr old => exact stays old
  unfold unregisterSharedFileAlias
  cases found : findSharedPage s identity fileOffset with
  | none =>
    refine ⟨fun pg member l listed stays => other pg member l listed ?_ stays, inv.once⟩
    rintro rfl
    obtain ⟨rfl, rfl⟩ := keyed pg member listed
    exact absurd (found.symm.trans (table.find member)) (by simp)
  | some _ =>
    refine ⟨?_, ?_⟩
    · intro pg' member l listed stays
      obtain ⟨pg, here, rfl⟩ := mem_map.mp member
      by_cases key : pg.identity = identity ∧ pg.fileOffset = fileOffset
      · rw [if_pos key] at listed ⊢
        refine other pg here l (mem_of_mem_erase listed) ?_ stays
        rintro rfl
        exact (inv.once pg here).not_mem_erase listed
      · rw [if_neg key] at listed ⊢
        refine other pg here l listed ?_ stays
        rintro rfl
        obtain ⟨rfl, rfl⟩ := keyed pg here listed
        exact key ⟨rfl, rfl⟩
    · intro pg' member
      obtain ⟨pg, here, rfl⟩ := mem_map.mp member
      split
      · exact (inv.once pg here).erase _
      · exact inv.once pg here

theorem KeyedBy.unregister (keyed : KeyedBy p s item)
    (identity fileOffset a : Nat) :
    KeyedBy p (unregisterSharedFileAlias s identity fileOffset p a).2 item := by
  unfold unregisterSharedFileAlias
  cases findSharedPage s identity fileOffset with
  | none => exact keyed
  | some _ =>
    intro pg' member listed
    obtain ⟨pg, here, rfl⟩ := mem_map.mp member
    split at listed
    · rename_i key
      rw [if_pos key]
      exact keyed pg here (mem_of_mem_erase listed)
    · rename_i key
      rw [if_neg key]
      exact keyed pg here listed

theorem Inv.unregisterItems (p : Nat) (taken : List (ReleaseItem × Pte)) :
    ∀ {s : Sys}, Inv t seen k s → (∀ entry ∈ taken, s.pte p entry.1.address = none) →
      Inv t seen k (unregisterItems p s taken) ∧ FileSame s (unregisterItems p s taken) ∧
      ((∀ entry ∈ taken, KeyedBy p s entry.1) →
        AliasInv (taken.map fun entry => (p, entry.1.address)) s →
        AliasInv [] (unregisterItems p s taken)) := by
  induction taken with
  | nil => exact fun inv _ => ⟨inv, .refl _, fun _ aliases => aliases⟩
  | cons entry taken ih =>
    intro s inv free
    obtain ⟨freeHere, freeLater⟩ := forall_mem_cons.mp free
    unfold Memory.unregisterItems
    split
    · rename_i plain
      obtain ⟨inv', files, struck⟩ := ih inv freeLater
      refine ⟨inv', files, fun keyed aliases => ?_⟩
      obtain ⟨keyedHere, keyedLater⟩ := forall_mem_cons.mp keyed
      refine struck keyedLater ⟨fun pg member l listed stays => ?_, aliases.once⟩
      refine aliases.leaf pg member l listed fun inGone => ?_
      cases mem_cons.mp inGone with
      | inl same =>
        have own : l = (p, entry.1.address) := same
        have identity := (keyedHere pg member (own ▸ listed)).1
        exact (inv.table.shape pg member).1 (identity.symm.trans plain)
      | inr old => exact stays old
    · obtain ⟨inv₁, files₁⟩ :=
        inv.unregisterSharedFileAlias entry.1.sharedIdentity entry.1.fileOffset freeHere
      have procs := procs_unregisterSharedFileAlias s entry.1.sharedIdentity entry.1.fileOffset p
        entry.1.address
      obtain ⟨inv₂, files₂, struck⟩ := ih inv₁ fun other member => by
        unfold Sys.pte
        rw [procs]
        exact freeLater other member
      refine ⟨inv₂, files₁.trans files₂, fun keyed aliases => ?_⟩
      obtain ⟨keyedHere, keyedLater⟩ := forall_mem_cons.mp keyed
      exact struck (fun other member => (keyedLater other member).unregister _ _ _)
        (AliasInv.strike aliases inv.table keyedHere)

/-- Aliases of taken leaves are the only ones without a leaf. -/
theorem AliasInv.taken (inv : AliasInv [] s)
    (taken : LeavesTaken p addresses s s') : AliasInv (addresses.map fun a => (p, a)) s' where
  leaf := by
    intro pg member l listed stays
    obtain ⟨e, mapped, rest⟩ := inv.leaf pg (taken.shared ▸ member) l listed not_mem_nil
    refine ⟨e, ?_, rest⟩
    rw [taken.leaf, if_neg]
    · exact mapped
    · rintro ⟨same, inside⟩
      exact stays (mem_map.mpr ⟨l.2, inside, Prod.ext same.symm rfl⟩)
  once := fun pg member => inv.once pg (taken.shared ▸ member)

/-! ## The commit -/

/-- What releasing areas keeps: the content of files, the agreement of aliases, and of a
process all but its leaves and areas, where pages may leave their area. -/
structure Trimmed (t : Target) (s s' : Sys) : Prop where
  files : FileSame s s'
  aliases : AliasInv [] s → AliasInv [] s'
  rest : ∀ q, s'.procs q = { s.procs q with vmas := s'.vmas q, paging := (s'.procs q).paging }
  areas : ∀ q a, attrsAt t (s'.vmas q) a = attrsAt t (s.vmas q) a ∨
    attrsAt t (s'.vmas q) a = none

theorem Trimmed.of_kept (kept : Kept s s') : Trimmed t s s' where
  files := kept.files
  aliases := kept.aliases
  rest := by
    intro q
    rw [kept.vmas]
    exact kept.rest q
  areas := fun q a => .inl (by rw [kept.vmas])

theorem Trimmed.trans (first : Trimmed t s mid) (second : Trimmed t mid s') : Trimmed t s s' where
  files := first.files.trans second.files
  aliases := fun inv => second.aliases (first.aliases inv)
  rest := by
    intro q
    rw [second.rest q, first.rest q]
  areas := by
    intro q a
    rcases second.areas q a with same | none
    · rw [same]
      exact first.areas q a
    · exact .inr none

theorem Trimmed.life (trimmed : Trimmed t s s') (q : Nat) :
    (s'.procs q).life = (s.procs q).life := by
  rw [trimmed.rest q]

/-- Aliases of planned pages are those the plan gives the key of. -/
theorem Inv.keyedBy (inv : Inv t seen k s) (aliases : AliasInv [] s) {p address length}
    (member : item ∈ unmapItems t s p address length) : KeyedBy p s item := by
  intro pg inTable listed
  obtain ⟨e, mapped, frame, -, -⟩ := aliases.leaf pg inTable _ listed not_mem_nil
  obtain ⟨-, v, here, identity, offset⟩ := unmapItems_area (inv.space.areas p) member
  have home := inv.leaf.sharedLeaf p item.address e mapped pg inTable frame.symm
  have matched := aliasVmaMatches_iff.mp (inv.space.sharedHome_iff.mp home)
  obtain ⟨w, file, there, type, mode, backed, inode, position⟩ := matched
  obtain rfl := Option.some.inj (here.symm.trans there)
  obtain ⟨inVmas, covered⟩ := (inv.space.areas p).vmaAt_iff.mp here
  obtain ⟨wrapped, wide⟩ := (inv.space.bounded p v inVmas).offset
    (by simp [Vma.fileBacked, type, backed]) covered
  refine ⟨?_, ?_⟩
  · rw [identity]
    simp [sharedIdentity, type, mode, backed, inode]
  · rw [offset, wrapped, ← position, wide]

theorem Inv.unpin (inv : Inv t seen k s) (pins : List ExecutableImagePin) :
    Inv t seen k { s with pins } ∧ FileSame s { s with pins } :=
  inv.transport (inv.refs.congr rfl (Perm.refl _) rfl rfl) rfl rfl rfl (fun _ _ => rfl) rfl

section Commit

variable {p address length : Nat}

/-- The areas that are left. -/
def unmappedVmas (t : Target) (s : Sys) (p address length : Nat) : List Vma :=
  mergeAdjacentAnonymousVmas ((s.vmas p).flatMap (unmapPieces t address (address + length)
    ((splitFileVma address (address + length) (s.vmas p)).bind (·.vfile))))

theorem attrsAt_unmappedVmas (ok : VmasOk (s.vmas p)) (positive : 0 < length)
    (low : Aligned address) (high : Aligned (address + length)) (a : Nat) :
    attrsAt t (unmappedVmas t s p address length) a =
      if address ≤ a ∧ a < address + length then none else attrsAt t (s.vmas p) a := by
  have range : address < address + length := Nat.lt_add_of_pos_right positive
  unfold unmappedVmas
  rw [attrsAt_merged (ok.unmapped t _ range low high),
    attrsAt_unmapped range (splitFileVma_same ok range)]

/-- Cutting the areas once the leaves of the range are gone. -/
theorem Inv.cutAreas (inv : Inv t seen k s) (active : Active s p) (positive : 0 < length)
    (low : Aligned address) (high : Aligned (address + length))
    (gone : ∀ a, address ≤ a → a < address + length → attrsAt t (s.vmas p) a ≠ none →
      s.pte p a = none) :
    Inv t seen k (s.setVmas p (unmappedVmas t s p address length)) ∧
      FileSame s (s.setVmas p (unmappedVmas t s p address length)) := by
  have ok := inv.space.areas p
  have range : address < address + length := Nat.lt_add_of_pos_right positive
  have attrs := attrsAt_unmappedVmas (t := t) ok positive low high
  refine inv.setVmas active (ok.unmapped t _ range low high).merged ?_ ?_ ?_ ?_
  · refine Bounded.merged fun v member => ?_
    obtain ⟨w, inVmas, piece⟩ := mem_flatMap.mp member
    exact Bounded.unmapPieces (inv.space.bounded p w inVmas) range piece
  · intro a found covered
    rw [attrs] at covered
    obtain ⟨_, covered⟩ := Option.ite_none_left_eq_some.mp covered
    exact inv.space.plain p a found covered
  · intro a inside
    rw [attrs, inv.space.slicesFree p a inside]
    split <;> rfl
  · intro a e here
    rw [attrs]
    split
    · rename_i inside
      cases area : attrsAt t (s.vmas p) a with
      | none => trivial
      | some found =>
        have none := gone a inside.1 inside.2 (by simp [area])
        exact absurd (none.symm.trans here) (by simp)
    · exact (inv.leafOk here).refits_of_same rfl

theorem procs_setVmas_rest (s : Sys) (p : Nat) (vmas : List Vma) (q : Nat) :
    (s.setVmas p vmas).procs q = { s.procs q with
      vmas := (s.setVmas p vmas).vmas q, paging := ((s.setVmas p vmas).procs q).paging } := by
  rw [procs_setVmas, Sys.vmas_setVmas]

variable (inv : Inv t seen k s)

include inv

theorem Inv.committed (active : Active s p)
    (positive : 0 < length) (low : Aligned address) (high : Aligned (address + length))
    (outcome : UnmapOutcome)
    (done : (unmapLeaves p outcome.decode outcome.unmap s (unmapItems t s p address length)).1 =
      true) :
    Inv t seen k (committed t s p address (address + length)
        ((splitFileVma address (address + length) (s.vmas p)).bind (·.vfile))
        (unmapItems t s p address length) outcome) ∧
        Trimmed t s (committed t s p address (address + length)
        ((splitFileVma address (address + length) (s.vmas p)).bind (·.vfile))
        (unmapItems t s p address length) outcome) := by
  have ok := inv.space.areas p
  obtain ⟨finished, s₁, taken, ran, inv₁, files₁, leaves, planned, gone⟩ :=
    unmapLeaves_spec p outcome.decode outcome.unmap (unmapItems t s p address length) inv
  unfold Memory.committed
  rw [ran] at done ⊢
  change Inv t seen _ (unpinReleased p (releaseMappings (Memory.unregisterItems p
    (s₁.setVmas p (unmappedVmas t s p address length)) taken) _) _) ∧ Trimmed t s
    (unpinReleased p (releaseMappings (Memory.unregisterItems p
    (s₁.setVmas p (unmappedVmas t s p address length)) taken) _) _)
  have vmas₁ := leaves.vmas p
  have same : unmappedVmas t s p address length = unmappedVmas t s₁ p address length := by
    unfold unmappedVmas
    rw [vmas₁]
  have active₁ : Active s₁ p := by
    unfold Active
    rw [leaves.rest p]
    exact active
  have cleared : ∀ a, address ≤ a → a < address + length →
      attrsAt t (s₁.vmas p) a ≠ none → s₁.pte p a = none := by
    intro a below above covered
    rw [vmas₁] at covered
    cases mapped : s₁.pte p a with
    | none => rfl
    | some e =>
      have aligned := inv₁.leaf.aligned p a e mapped
      cases here : vmaAt (s.vmas p) a with
      | none =>
        rw [attrsAt_eq, here] at covered
        exact absurd rfl covered
      | some v =>
        have item := mem_unmapItems (t := t) ok low high aligned ⟨below, above⟩ here
        have physical := inv.space.not_device (ok.vmaAt_iff.mp here).1
        have empty := gone done _ item (by simp [physical])
        exact absurd (empty.symm.trans mapped) (by simp)
  obtain ⟨inv₂, files₂⟩ := inv₁.cutAreas active₁ positive low high cleared
  rw [← same] at inv₂ files₂
  have pte₂ := Sys.pte_setVmas s₁ p (unmappedVmas t s p address length)
  have vmas₂ := Sys.vmas_setVmas s₁ p (unmappedVmas t s p address length)
  have rest₂ := procs_setVmas_rest s₁ p (unmappedVmas t s p address length)
  have shared₂ : (s₁.setVmas p (unmappedVmas t s p address length)).shared = s₁.shared := rfl
  generalize s₁.setVmas p (unmappedVmas t s p address length) = s₂ at *
  have free : ∀ entry ∈ taken, s₂.pte p entry.1.address = none := by
    intro entry member
    rw [pte₂, leaves.leaf, if_pos ⟨rfl, mem_map_of_mem member⟩]
  have left : AliasInv [] s → AliasInv (taken.map fun entry => (p, entry.1.address)) s₂ := by
    intro aliases
    have removed := aliases.taken leaves
    rw [map_map] at removed
    refine ⟨fun pg member l listed stays => ?_,
      fun pg member => removed.once pg (shared₂ ▸ member)⟩
    obtain ⟨e, mapped, rest⟩ := removed.leaf pg (shared₂ ▸ member) l listed stays
    exact ⟨e, (pte₂ ..).trans mapped, rest⟩
  have keyed : AliasInv [] s → ∀ entry ∈ taken, KeyedBy p s₂ entry.1 := by
    intro aliases entry member pg inTable
    exact inv.keyedBy aliases (planned entry member) pg (leaves.shared ▸ shared₂ ▸ inTable)
  obtain ⟨inv₃, files₃, struck⟩ := inv₂.unregisterItems p taken free
  have procs₃ := procs_unregisterItems p taken s₂
  generalize Memory.unregisterItems p s₂ taken = s₃ at *
  have refs := RefsOnly.releaseMappings (taken.map (·.2.frame)) s₃
  obtain ⟨inv₄, -⟩ := inv₃.refsOnly refs (RefInv.releaseMappings _ inv₃.refs)
  have kept₄ := Kept.of_refs refs
  have procs₄ := refs.procs.trans procs₃
  generalize releaseMappings s₃ (taken.map (·.2.frame)) = s₄ at *
  rw [unpinReleased_frame]
  generalize (unpinReleased p s₄ (releasedInodes address (address + length) (s.vmas p))).pins =
    pins
  obtain ⟨inv₅, files₅⟩ := inv₄.unpin pins
  have vmas₅ : ∀ q, Sys.vmas { s₄ with pins } q = s₂.vmas q := by
    intro q
    unfold Sys.vmas
    rw [procs₄]
  refine ⟨inv₅, (((files₁.trans files₂).trans files₃).trans kept₄.files).trans files₅,
    ?_, ?_, ?_⟩
  · exact fun aliases =>
      (kept₄.aliases (struck (keyed aliases) (left aliases))).of_leaves (fun _ _ leaf => leaf) rfl
  · intro q
    have own := rest₂ q
    have old := leaves.rest q
    rw [vmas₅]
    rw [procs₄, own, old]
  · intro q a
    rw [vmas₅, vmas₂]
    split
    · rename_i same
      rw [same, attrsAt_unmappedVmas ok positive low high]
      split
      · exact .inr rfl
      · exact .inl rfl
    · exact .inl (by rw [leaves.vmas])

theorem Inv.unmapVmaRange (active : Active s p)
    (address length : Nat) (force : Bool) (outcome : UnmapOutcome) :
    ∃ result s', unmapVmaRange t s p address length force outcome = (result, s') ∧
      Inv t seen k s' ∧ Trimmed t s s' ∧
      (result = true → ∀ a, address ≤ a → a < address + length →
        attrsAt t (s'.vmas p) a = none) := by
  obtain ⟨inv₁, kept⟩ :=
    inv.flushItems p force outcome.flush (unmapItems t s p address length)
  have plain : clearedState t s p address length force outcome =
      (true, (flushedState t s p address length force outcome).2) := by
    unfold clearedState
    rw [inv.space.deviceRanges_nil]
    rfl
  rcases unmapVmaRange_cases t s p address length force outcome (inv.space.areas p) with
    ⟨last, failed, back⟩ | ⟨positive, low, high, taken, done⟩
  · refine ⟨false, last, failed, ?_⟩
    have trimmed : Trimmed t s (flushedState t s p address length force outcome).2 := .of_kept kept
    rcases back fun a e here => inv.frames_ne_zero here with rfl | rfl | rfl
    · exact ⟨inv, .of_kept (.refl _), by simp⟩
    · exact ⟨inv₁, trimmed, by simp⟩
    · rw [plain]
      exact ⟨inv₁, trimmed, by simp⟩
  · rw [plain] at taken done
    change Inv t seen _ (flushedState t s p address length force outcome).2 at inv₁
    change Kept s (flushedState t s p address length force outcome).2 at kept
    generalize (flushedState t s p address length force outcome).2 = s₁ at *
    have items : unmapItems t s p address length = unmapItems t s₁ p address length := by
      unfold unmapItems
      rw [kept.vmas]
    rw [items] at taken done
    rw [← kept.vmas p] at done
    obtain ⟨inv₂, trimmed⟩ :=
      inv₁.committed ((kept.active p).mpr active) positive low high outcome taken
    refine ⟨true, _, done, inv₂, (Trimmed.of_kept kept).trans trimmed,
      fun _ a below above => ?_⟩
    rw [committed_vmas]
    exact (attrsAt_unmappedVmas (inv₁.space.areas p) positive low high a).trans
      (if_pos ⟨below, above⟩)

omit inv in
/-- The bounds that `ReleaseAllVmas` takes are those of areas. -/
theorem foldl_bounds (v : Vma) (rest : List Vma) :
    (∃ w ∈ v :: rest, rest.foldl (fun low w => min low w.vmStart) v.vmStart = w.vmStart) ∧
      (∃ w ∈ v :: rest, rest.foldl (fun high w => max high w.vmEnd) v.vmEnd = w.vmEnd) ∧
      ∀ w ∈ v :: rest, rest.foldl (fun low w => min low w.vmStart) v.vmStart ≤ w.vmStart ∧
        w.vmEnd ≤ rest.foldl (fun high w => max high w.vmEnd) v.vmEnd := by
  induction rest using reverseRecOn with
  | nil => simp
  | append_singleton rest last ih =>
    simp only [foldl_append, foldl_cons, foldl_nil]
    grind

omit inv in
/-- The range of `ReleaseAllVmas` spans every area. -/
theorem attrsAt_outside
    (span : ∀ v ∈ vmas, low ≤ v.vmStart ∧ v.vmEnd ≤ high)
    (outside : ¬ (low ≤ a ∧ a < high)) :
    attrsAt t vmas a = none := by
  rw [attrsAt_eq]
  cases here : vmaAt vmas a with
  | none => rfl
  | some v =>
    have covered := Vma.covers_iff.mp (find?_some (p := fun w : Vma => w.covers a) here)
    have inside := span v (mem_of_find?_eq_some here)
    exact absurd ⟨by omega, by omega⟩ outside

theorem Inv.releaseAllVmas (active : Active s p) (outcome : UnmapOutcome) :
    ∃ result s', releaseAllVmas t s p outcome = (result, s') ∧ Inv t seen k s' ∧
      Trimmed t s s' ∧
      (result = true → ∀ a, attrsAt t (s'.vmas p) a = none) := by
  unfold Memory.releaseAllVmas
  cases areas : s.vmas p with
  | nil =>
    refine ⟨true, s, rfl, inv, .of_kept (.refl s), fun _ a => ?_⟩
    rw [areas]
    rfl
  | cons v rest =>
    dsimp only
    split
    · exact ⟨false, s, rfl, inv, .of_kept (.refl s), by simp⟩
    rename_i nonempty
    obtain ⟨-, -, span⟩ := foldl_bounds v rest
    generalize rest.foldl (fun low w => min low w.vmStart) v.vmStart = first at *
    generalize rest.foldl (fun high w => max high w.vmEnd) v.vmEnd = last at *
    rw [← areas] at span
    obtain ⟨result, s', ran, inv', trimmed, gone⟩ :=
      inv.unmapVmaRange active first (last - first) true
      outcome
    refine ⟨result, s', ran, inv', trimmed, fun succeeded a => ?_⟩
    by_cases inside : first ≤ a ∧ a < last
    · exact gone succeeded a inside.1 (by omega)
    · rcases trimmed.areas p a with same | none
      · rw [same]
        exact attrsAt_outside span inside
      · exact none

omit inv

end Commit

end Unmap

end Mecocoa.Memory
