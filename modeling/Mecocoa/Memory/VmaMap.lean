import Mathlib.Data.List.TakeWhile
import Mecocoa.Lib.CellMap
import Mecocoa.Memory.Vma

/-! # What a list of areas denotes

A sorted list of disjoint areas gives each page the attributes of the area over
it.  For a file area these include the inode and the file offset of that very
page, so that a cut which forgot to move the offset would change the map.
Insertion has one possible position in a sorted list; every edit below is first
computed as a list and then read through the map.
-/

namespace Mecocoa.Memory

open Lib List Vma

variable {v : Vma} {vmas before after : List Vma}

structure Vma.WellFormed (v : Vma) : Prop where
  startAligned : Aligned v.vmStart
  endAligned : Aligned v.vmEnd
  nonempty : v.vmStart < v.vmEnd

structure VmasOk (vmas : List Vma) : Prop where
  wellFormed : ∀ v ∈ vmas, v.WellFormed
  sorted : vmas.Pairwise fun a b => a.vmEnd ≤ b.vmStart

structure PageAttrs where
  type : VmaType
  mode : VmaMode
  flags : PageProps
  reservation : Bool
  backing : Option (VfsFile × Nat)
  deriving DecidableEq, Repr

/-- The backing of address `a` is the open file with the offset that `a` has in it. -/
def Vma.attrs (t : Target) (v : Vma) (a : Nat) : PageAttrs where
  type := v.vmType
  mode := v.vmMode
  flags := v.vmFlags
  reservation := v.vmReservation
  backing := match v.vmType, v.vfile with
    | .file, some file => some (file, t.wrap (v.fileOffset + (a - v.vmStart)))
    | _, _ => none

def attrsAt (t : Target) (vmas : List Vma) (a : Nat) : Option PageAttrs :=
  CellMap.lookup Vma.covers (Vma.attrs t) vmas a

/-- The partial map from pages to attributes. -/
def vmaMap (t : Target) (vmas : List Vma) (n : Nat) : Option PageAttrs :=
  attrsAt t vmas (n * pageSize)

theorem Vma.covers_iff : v.covers a = true ↔ v.vmStart ≤ a ∧ a < v.vmEnd := by
  simp [covers]

theorem Vma.overlaps_iff :
    v.overlaps existing = true ↔ v.vmStart < existing.vmEnd ∧ existing.vmStart < v.vmEnd := by
  simp [overlaps]

namespace VmasOk

theorem nil : VmasOk [] where
  wellFormed := by simp
  sorted := Pairwise.nil

theorem append_iff : VmasOk (left ++ right) ↔ VmasOk left ∧ VmasOk right ∧
      ∀ a ∈ left, ∀ b ∈ right, a.vmEnd ≤ b.vmStart := by
  constructor
  · intro ok
    obtain ⟨sortedLeft, sortedRight, cross⟩ := pairwise_append.mp ok.sorted
    exact ⟨⟨fun v member => ok.wellFormed v (mem_append_left _ member), sortedLeft⟩,
      ⟨fun v member => ok.wellFormed v (mem_append_right _ member), sortedRight⟩, cross⟩
  · intro ⟨okLeft, okRight, cross⟩
    refine ⟨?_, pairwise_append.mpr ⟨okLeft.sorted, okRight.sorted, cross⟩⟩
    intro v member
    exact (mem_append.mp member).elim (okLeft.wellFormed v) (okRight.wellFormed v)

theorem cons_iff :
    VmasOk (v :: rest) ↔ v.WellFormed ∧ VmasOk rest ∧
      ∀ b ∈ rest, v.vmEnd ≤ b.vmStart := by
  constructor
  · intro ok
    obtain ⟨cross, sorted⟩ := pairwise_cons.mp ok.sorted
    exact ⟨ok.wellFormed v (.head _),
      ⟨fun b member => ok.wellFormed b (mem_cons_of_mem v member), sorted⟩, cross⟩
  · intro ⟨wf, ok, cross⟩
    exact ⟨forall_mem_cons.mpr ⟨wf, ok.wellFormed⟩,
      pairwise_cons.mpr ⟨cross, ok.sorted⟩⟩

theorem apart (ok : VmasOk vmas) : CellMap.Apart covers vmas := by
  refine ok.sorted.imp ?_
  intro a b order k ⟨inA, inB⟩
  rw [covers_iff] at inA inB
  omega

theorem vmaAt_iff (ok : VmasOk vmas)   :
    vmaAt vmas a = some v ↔ v ∈ vmas ∧ v.covers a = true := by
  constructor
  · intro found
    exact ⟨mem_of_find?_eq_some found, find?_some (p := fun w : Vma => w.covers a) found⟩
  · rintro ⟨member, covered⟩
    cases found : vmaAt vmas a with
    | none => exact absurd covered (find?_eq_none.mp found v member)
    | some w =>
      rw [ok.apart.unique (mem_of_find?_eq_some found) member
        (find?_some (p := fun w : Vma => w.covers a) found) covered]

theorem around (ok : VmasOk (before ++ v :: after)) :
    v.WellFormed ∧ (∀ a ∈ before, a.vmEnd ≤ v.vmStart) ∧
      ∀ b ∈ after, v.vmEnd ≤ b.vmStart := by
  obtain ⟨-, okRight, cross⟩ := append_iff.mp ok
  obtain ⟨wf, -, later⟩ := cons_iff.mp okRight
  exact ⟨wf, fun a member => cross a member v (.head _), later⟩

/-- One area may give way to areas inside it. -/
theorem replace (ok : VmasOk (before ++ v :: after)) (okMiddle : VmasOk middle)
    (inside : ∀ m ∈ middle, v.vmStart ≤ m.vmStart ∧ m.vmEnd ≤ v.vmEnd) :
    VmasOk (before ++ middle ++ after) := by
  obtain ⟨okBefore, okRight, cross⟩ := append_iff.mp ok
  obtain ⟨wf, okAfter, later⟩ := cons_iff.mp okRight
  refine append_iff.mpr ⟨append_iff.mpr ⟨okBefore, okMiddle, ?_⟩, okAfter, ?_⟩
  · intro a inBefore m inMiddle
    have := cross a inBefore v (.head _)
    have := (inside m inMiddle).1
    omega
  · intro a member b inAfter
    have := later b inAfter
    cases mem_append.mp member with
    | inl inBefore => exact cross a inBefore b (.tail _ inAfter)
    | inr inMiddle =>
      have := (inside a inMiddle).2
      omega

end VmasOk

/-! ## Insertion -/

theorem sinkVma_between : ∀ (after before : List Vma),
    (∀ b ∈ after, v.vmStart < b.vmStart) → (∀ a ∈ before, a.vmStart ≤ v.vmStart) →
      sinkVma v (after ++ before) = after ++ v :: before := by
  intro after
  induction after with
  | nil =>
    intro before _ low
    cases before with
    | nil => rfl
    | cons last rest =>
      have := low last (.head _)
      simp only [nil_append, sinkVma]
      rw [if_neg (by omega)]
  | cons b after ih =>
    intro before high low
    have := high b (.head _)
    simp only [cons_append, sinkVma]
    rw [if_pos this, ih before (fun c member => high c (.tail _ member)) low]

/-- The position of an area between those below and those above it. -/
theorem insertVmaSorted_between (before after : List Vma) (wf : v.WellFormed)
    (ok : VmasOk (before ++ after)) (low : ∀ a ∈ before, a.vmEnd ≤ v.vmStart)
    (high : ∀ b ∈ after, v.vmEnd ≤ b.vmStart) :
    insertVmaSorted (before ++ after) v true = some (before ++ v :: after) := by
  have nonempty := wf.nonempty
  have free : (before ++ after).any v.overlaps = false := by
    rw [any_eq_false]
    intro existing member overlap
    rw [overlaps_iff] at overlap
    cases mem_append.mp member with
    | inl inBefore =>
      have := low existing inBefore
      omega
    | inr inAfter =>
      have := high existing inAfter
      omega
  have place : sinkVma v (before ++ after).reverse = after.reverse ++ v :: before.reverse := by
    rw [reverse_append]
    apply sinkVma_between
    · intro b member
      have := high b (mem_reverse.mp member)
      omega
    · intro a member
      have := low a (mem_reverse.mp member)
      have := (ok.wellFormed a (mem_append_left _ (mem_reverse.mp member))).nonempty
      omega
  unfold insertVmaSorted
  rw [if_neg (by simp [wf.startAligned, wf.endAligned, nonempty]), free, place]
  simp

theorem insertVmaSorted_refused (vmas : List Vma) (v : Vma) :
    insertVmaSorted vmas v false = none := by
  unfold insertVmaSorted
  split
  · rfl
  · split <;> simp

/-- An area that overlaps nothing has a gap of the list to itself. -/
theorem VmasOk.gap (ok : VmasOk vmas) (free : ∀ e ∈ vmas, ¬ v.overlaps e = true) :
    ∃ before after, vmas = before ++ after ∧ (∀ a ∈ before, a.vmEnd ≤ v.vmStart) ∧
      ∀ b ∈ after, v.vmEnd ≤ b.vmStart := by
  induction vmas with
  | nil => exact ⟨[], [], rfl, by simp, by simp⟩
  | cons head rest ih =>
    obtain ⟨wf, okRest, later⟩ := VmasOk.cons_iff.mp ok
    have headFree := free head (.head _)
    rw [overlaps_iff] at headFree
    have headNonempty := wf.nonempty
    by_cases below : head.vmEnd ≤ v.vmStart
    · obtain ⟨before, after, same, low, high⟩ :=
        ih okRest fun e member => free e (.tail _ member)
      exact ⟨head :: before, after, by rw [same, cons_append],
        forall_mem_cons.mpr ⟨below, low⟩, high⟩
    · refine ⟨[], head :: rest, rfl, by simp,
        forall_mem_cons.mpr ⟨by omega, fun b old => ?_⟩⟩
      have := later b old
      omega

theorem insertVmaSorted_some
    (ok : VmasOk vmas) (done : insertVmaSorted vmas v append = some inserted) :
    v.WellFormed ∧ ∃ before after, vmas = before ++ after ∧
      inserted = before ++ v :: after ∧
      (∀ a ∈ before, a.vmEnd ≤ v.vmStart) ∧ ∀ b ∈ after, v.vmEnd ≤ b.vmStart := by
  cases append with
  | false => simp [insertVmaSorted_refused] at done
  | true =>
    have original := done
    obtain ⟨shape, done⟩ := Option.ite_none_left_eq_some.mp done
    obtain ⟨free, done⟩ := Option.ite_none_left_eq_some.mp done
    have wf : v.WellFormed := by
      constructor
      · by_contra unaligned
        exact shape (.inr (.inl unaligned))
      · by_contra unaligned
        exact shape (.inr (.inr unaligned))
      · omega
    obtain ⟨before, after, rfl, low, high⟩ := ok.gap fun e member overlap =>
      free (any_eq_true.mpr ⟨e, member, overlap⟩)
    have placed := insertVmaSorted_between _ _ wf ok low high
    rw [original] at placed
    exact ⟨wf, before, after, rfl, Option.some.inj placed, low, high⟩

theorem VmasOk.inserted (ok : VmasOk (before ++ after))
    (wf : v.WellFormed) (low : ∀ a ∈ before, a.vmEnd ≤ v.vmStart)
    (high : ∀ b ∈ after, v.vmEnd ≤ b.vmStart) : VmasOk (before ++ v :: after) := by
  obtain ⟨okBefore, okAfter, cross⟩ := VmasOk.append_iff.mp ok
  refine VmasOk.append_iff.mpr ⟨okBefore, VmasOk.cons_iff.mpr ⟨wf, okAfter, high⟩, ?_⟩
  exact fun a inBefore => forall_mem_cons.mpr ⟨low a inBefore, cross a inBefore⟩

/-- An area of a good list has its place in the list without it. -/
theorem VmasOk.insert (before after : List Vma) (ok : VmasOk (before ++ v :: after)) :
    VmasOk (before ++ after) ∧ insertVmaSorted (before ++ after) v true =
      some (before ++ v :: after) := by
  obtain ⟨okBefore, okRest, cross⟩ := VmasOk.append_iff.mp ok
  obtain ⟨wf, okAfter, above⟩ := VmasOk.cons_iff.mp okRest
  have without : VmasOk (before ++ after) :=
      VmasOk.append_iff.mpr ⟨okBefore, okAfter, fun a inA b inB =>
    cross a inA b (.tail _ inB)⟩
  exact ⟨without, insertVmaSorted_between before after wf without
    (fun a inA => cross a inA v (.head _)) above⟩

theorem VmasOk.of_one (wf : v.WellFormed) : VmasOk [v] :=
  VmasOk.cons_iff.mpr ⟨wf, VmasOk.nil, by simp⟩

/-! ## Cuts -/

theorem Vma.attrs_rightOf (low : v.vmStart ≤ boundary)
    (inside : boundary ≤ a) : (v.rightOf t boundary v.vfile).attrs t a = v.attrs t a := by
  have offset : t.wrap (t.wrap (v.fileOffset + (boundary - v.vmStart)) + (a - boundary)) =
      t.wrap (v.fileOffset + (a - v.vmStart)) := by
    rw [Target.wrap_wrap_add]
    congr 1
    omega
  unfold rightOf attrs
  rw [offset]

theorem Vma.attrs_from (plain : v.fileBacked = false) (boundary a : Nat) :
    ({ v with vmStart := boundary } : Vma).attrs t a = v.attrs t a := by
  unfold fileBacked at plain
  unfold attrs
  cases typed : v.vmType with
  | anonymous => rfl
  | device => rfl
  | file =>
    cases own : v.vfile with
    | none => rfl
    | some _ => simp [typed, own] at plain

/-- The part of an area above a cut, as the two splitting loops build it. -/
def Vma.above (t : Target) (v : Vma) (boundary : Nat) (file : Option VfsFile) : Vma :=
  if v.fileBacked then v.rightOf t boundary file else { v with vmStart := boundary }

theorem Vma.above_start (t : Target) (v : Vma) (boundary : Nat) (file : Option VfsFile) :
    (v.above t boundary file).vmStart = boundary := by
  unfold above
  split <;> rfl

theorem Vma.above_end (t : Target) (v : Vma) (boundary : Nat) (file : Option VfsFile) :
    (v.above t boundary file).vmEnd = v.vmEnd := by
  unfold above
  split <;> rfl

theorem Vma.attrs_above
    (same : v.fileBacked = true → file = v.vfile) (low : v.vmStart ≤ boundary)
    (inside : boundary ≤ a) : (v.above t boundary file).attrs t a = v.attrs t a := by
  unfold above
  cases backed : v.fileBacked with
  | true =>
    rw [same backed]
    exact attrs_rightOf low inside
  | false => exact attrs_from backed boundary a

theorem Vma.WellFormed.above (wf : v.WellFormed) (t : Target)
    (file : Option VfsFile) (aligned : Aligned boundary) (below : boundary < v.vmEnd) :
    (v.above t boundary file).WellFormed where
  startAligned := by rw [above_start]; exact aligned
  endAligned := by rw [above_end]; exact wf.endAligned
  nonempty := by rw [above_start, above_end]; exact below

theorem Vma.WellFormed.below (wf : v.WellFormed)
    (aligned : Aligned boundary) (above : v.vmStart < boundary) :
    ({ v with vmEnd := boundary } : Vma).WellFormed where
  startAligned := wf.startAligned
  endAligned := aligned
  nonempty := above

/-! ## Unmapping -/

/-- What an unmap leaves of one area. -/
def unmapPieces (t : Target) (address endAddr : Nat) (splitFile : Option VfsFile) (v : Vma) :
    List Vma :=
  if address ≤ v.vmStart ∧ v.vmEnd ≤ endAddr then []
  else if v.vmStart < address ∧ endAddr < v.vmEnd then
    [{ v with vmEnd := address }, v.above t endAddr splitFile]
  else if v.vmStart < address ∧ address < v.vmEnd then [{ v with vmEnd := address }]
  else if v.vmStart < endAddr ∧ endAddr < v.vmEnd then [v.above t endAddr v.vfile]
  else [v]

/-- The unmapped range lies strictly inside the area. -/
def Vma.holds (v : Vma) (address endAddr : Nat) : Bool :=
  decide (v.vmStart < address) && decide (endAddr < v.vmEnd)

theorem Vma.holds_iff :
    v.holds address endAddr = true ↔ v.vmStart < address ∧ endAddr < v.vmEnd := by
  simp [holds]

theorem unmapPieces_inside
    (range : address < endAddr) (member : m ∈ unmapPieces t address endAddr splitFile v) :
    v.vmStart ≤ m.vmStart ∧ m.vmEnd ≤ v.vmEnd := by
  unfold unmapPieces at member
  split at member
  · simp at member
  split at member
  · simp only [mem_cons, not_mem_nil, or_false] at member
    rcases member with rfl | rfl
    · exact ⟨le_refl _, by dsimp only; omega⟩
    · rw [above_start, above_end]
      omega
  split at member
  · obtain rfl := mem_singleton.mp member
    exact ⟨le_refl _, by dsimp only; omega⟩
  split at member
  · obtain rfl := mem_singleton.mp member
    rw [above_start, above_end]
    omega
  · obtain rfl := mem_singleton.mp member
    exact ⟨le_refl _, le_refl _⟩

theorem unmapPieces_ok (t : Target) (splitFile : Option VfsFile)
    (wf : v.WellFormed) (range : address < endAddr) (low : Aligned address)
    (high : Aligned endAddr) :
    VmasOk (unmapPieces t address endAddr splitFile v) := by
  unfold unmapPieces
  split
  · exact VmasOk.nil
  split
  · rename_i strict
    refine VmasOk.cons_iff.mpr ⟨wf.below low strict.1, .of_one (wf.above t _ high strict.2), ?_⟩
    intro b member
    obtain rfl := mem_singleton.mp member
    rw [above_start]
    dsimp only
    omega
  split
  · rename_i cut
    exact .of_one (wf.below low cut.1)
  split
  · rename_i cut
    exact .of_one (wf.above t _ high cut.2)
  · exact .of_one wf

theorem unmapPieces_cut
    (range : address < endAddr)
    (same : v.holds address endAddr = true → v.fileBacked = true → splitFile = v.vfile) :
    CellMap.Pieces covers (attrs t) (fun a => ¬ (address ≤ a ∧ a < endAddr))
      (unmapPieces t address endAddr splitFile) v := by
  refine ⟨?_, ?_⟩
  · intro a
    unfold unmapPieces
    split
    · simp only [not_mem_nil, false_and, exists_false, covers_iff, false_iff]
      omega
    split
    · simp only [mem_cons, not_mem_nil, or_false, exists_eq_or_imp, exists_eq_left, covers_iff,
        above_start, above_end]
      omega
    split
    · simp only [mem_singleton, exists_eq_left, covers_iff]
      omega
    split
    · simp only [mem_singleton, exists_eq_left, covers_iff, above_start, above_end]
      omega
    · simp only [mem_singleton, exists_eq_left, covers_iff]
      omega
  · intro m member a inside
    rw [covers_iff] at inside
    unfold unmapPieces at member
    split at member
    · simp at member
    split at member
    · rename_i strict
      simp only [mem_cons, not_mem_nil, or_false] at member
      rcases member with rfl | rfl
      · rfl
      · rw [above_start] at inside
        exact attrs_above (same (holds_iff.mpr strict)) (by omega) inside.1
    split at member
    · obtain rfl := mem_singleton.mp member
      rfl
    split at member
    · obtain rfl := mem_singleton.mp member
      rw [above_start] at inside
      exact attrs_above (fun _ => rfl) (by omega) inside.1
    · obtain rfl := mem_singleton.mp member
      rfl

section Unmapping

/-- One round replaces the area at the index by its pieces. -/
theorem unmapVmas_step
    (range : address < endAddr) (low : Aligned address) (high : Aligned endAddr)
    (ok : VmasOk (done ++ v :: rest)) (able : append = true ∨ v.holds address endAddr = false) :
    unmapVmas t address endAddr splitFile append (rounds + 1) done (v :: rest) =
      unmapVmas t address endAddr splitFile append rounds
        (done ++ unmapPieces t address endAddr splitFile v) rest := by
  obtain ⟨wf, before, after⟩ := ok.around
  conv_lhs => unfold unmapVmas
  unfold unmapPieces
  by_cases whole : address ≤ v.vmStart ∧ v.vmEnd ≤ endAddr
  · rw [if_pos whole, if_pos whole, append_nil]
  rw [if_neg whole, if_neg whole]
  by_cases strict : v.vmStart < address ∧ endAddr < v.vmEnd
  · have appends : append = true := by
      cases able with
      | inl yes => exact yes
      | inr no => simp [holds_iff.mpr strict] at no
    have pieces := ok.replace (unmapPieces_ok t splitFile wf range low high) fun m =>
      unmapPieces_inside range
    unfold unmapPieces at pieces
    rw [if_neg whole, if_pos strict] at pieces
    have placed :=
      (VmasOk.insert (done ++ [{ v with vmEnd := address }]) rest (by simpa using pieces)).2
    rw [if_pos strict, if_pos strict, appends]
    simp only [append_assoc, cons_append, nil_append, above] at placed
    simp only [placed]
    have taken : (done ++ { v with vmEnd := address } ::
        (if v.fileBacked = true then v.rightOf t endAddr splitFile
        else { v with vmStart := endAddr }) ::
          rest) = (done ++ [{ v with vmEnd := address }, v.above t endAddr splitFile]) ++ rest := by
      simp [above]
    have size : (done ++ [{ v with vmEnd := address }, v.above t endAddr splitFile]).length =
      done.length + 2 := by simp
    rw [taken, ← size, take_left, drop_left]
  rw [if_neg strict, if_neg strict]
  by_cases upper : v.vmStart < address ∧ address < v.vmEnd
  · rw [if_pos upper, if_pos upper]
  rw [if_neg upper, if_neg upper]
  by_cases lower : v.vmStart < endAddr ∧ endAddr < v.vmEnd
  · rw [if_pos lower, if_pos lower]
    rfl
  · rw [if_neg lower, if_neg lower]

theorem unmapVmas_commit (range : address < endAddr) (low : Aligned address)
    (high : Aligned endAddr) : ∀ (rest done : List Vma) (rounds : Nat), rest.length ≤ rounds →
      VmasOk (done ++ rest) →
      (append = true ∨ ∀ v ∈ rest, v.holds address endAddr = false) →
      unmapVmas t address endAddr splitFile append rounds done rest =
        (true, done ++ rest.flatMap (unmapPieces t address endAddr splitFile)) := by
  intro rest
  induction rest with
  | nil =>
    intro done rounds _ _ _
    cases rounds <;> simp [unmapVmas]
  | cons v rest ih =>
    intro done rounds enough ok able
    cases rounds with
    | zero => simp at enough
    | succ rounds =>
      obtain ⟨wf, -, -⟩ := ok.around
      have here : append = true ∨ v.holds address endAddr = false :=
        able.imp_right fun none => none v (.head _)
      have next := ok.replace (unmapPieces_ok t splitFile wf range low high)
        fun m member => unmapPieces_inside range member
      rw [unmapVmas_step range low high ok here, ih _ rounds (by simpa using enough) next
          (able.imp_right fun none w member => none w (mem_cons_of_mem v member)), flatMap_cons,
          append_assoc]

/-- If the node for the split cannot be had, the list is as it was. -/
theorem unmapVmas_abort (range : address < endAddr) (low : Aligned address)
    (high : Aligned endAddr) : ∀ (rest done : List Vma) (rounds : Nat), rest.length ≤ rounds →
      VmasOk (done ++ rest) → (∃ v ∈ rest, v.holds address endAddr = true) →
      unmapVmas t address endAddr splitFile false rounds done rest = (false, done ++ rest) := by
  intro rest
  induction rest with
  | nil =>
    intro done rounds _ _ ⟨v, member, _⟩
    simp at member
  | cons v rest ih =>
    intro done rounds enough ok held
    cases rounds with
    | zero => simp at enough
    | succ rounds =>
      obtain ⟨wf, -, later⟩ := ok.around
      by_cases here : v.holds address endAddr = true
      · obtain ⟨above, below⟩ := holds_iff.mp here
        unfold unmapVmas
        rw [if_neg (by omega), if_pos ⟨above, below⟩]
        simp only [insertVmaSorted_refused]
      · obtain ⟨w, member, deeper⟩ := held
        have inRest : w ∈ rest := by
          cases mem_cons.mp member with
          | inl same => exact absurd (same ▸ deeper) here
          | inr old => exact old
        have order := later w inRest
        have strict := holds_iff.mp deeper
        have single : unmapPieces t address endAddr splitFile v = [v] := by
          have := wf.nonempty
          unfold unmapPieces
          rw [if_neg (by omega), if_neg (by omega), if_neg (by omega), if_neg (by omega)]
        rw [unmapVmas_step range low high ok (.inr (by simpa using here)), single,
          ih (done ++ [v]) rounds (by simpa using enough) (by simpa using ok)
          ⟨w, inRest, deeper⟩]
        simp

theorem VmasOk.unmapped (ok : VmasOk vmas) (t : Target)
    (splitFile : Option VfsFile) (range : address < endAddr) (low : Aligned address)
    (high : Aligned endAddr) :
    VmasOk (vmas.flatMap (unmapPieces t address endAddr splitFile)) := by
  induction vmas with
  | nil => exact VmasOk.nil
  | cons v rest ih =>
    obtain ⟨wf, okRest, later⟩ := VmasOk.cons_iff.mp ok
    refine VmasOk.append_iff.mpr ⟨unmapPieces_ok t splitFile wf range low high, ih okRest, ?_⟩
    intro a inV b member
    obtain ⟨w, inRest, inW⟩ := mem_flatMap.mp member
    have := (unmapPieces_inside range inV).2
    have := (unmapPieces_inside range inW).1
    have := later w inRest
    omega

end Unmapping

/-! ## Merging -/

theorem mergeable_iff : mergeable left right = true ↔
    left.vmType = .anonymous ∧ right.vmType = .anonymous ∧ left.vmEnd = right.vmStart ∧
      left.vmFlags = right.vmFlags ∧ left.vmMode = right.vmMode ∧
      left.vmReservation = right.vmReservation := by
  simp [mergeable, and_assoc]

theorem Vma.attrs_anonymous (anonymous : v.vmType = .anonymous) (a : Nat) :
    v.attrs t a = ⟨.anonymous, v.vmMode, v.vmFlags, v.vmReservation, none⟩ := by
  unfold attrs
  rw [anonymous]

theorem mergeFrom_spec : ∀ (rest : List Vma) (left : Vma), VmasOk (left :: rest) →
    VmasOk (mergeFrom left rest) ∧ (∀ b ∈ mergeFrom left rest, left.vmStart ≤ b.vmStart) ∧
      ∀ t a, attrsAt t (mergeFrom left rest) a = attrsAt t (left :: rest) a := by
  intro rest
  induction rest with
  | nil => exact fun left ok => ⟨ok, by simp [mergeFrom], fun _ _ => rfl⟩
  | cons right rest ih =>
    intro left ok
    obtain ⟨wfLeft, okRight, later⟩ := VmasOk.cons_iff.mp ok
    obtain ⟨wfRight, okRest, laterRight⟩ := VmasOk.cons_iff.mp okRight
    have order := later right (.head _)
    have leftNonempty := wfLeft.nonempty
    have rightNonempty := wfRight.nonempty
    unfold mergeFrom
    by_cases joined : mergeable left right = true
    · obtain ⟨typeLeft, typeRight, adjacent, flags, mode, reservation⟩ :=
        mergeable_iff.mp joined
      obtain ⟨okMerged, low, same⟩ := ih { left with vmEnd := right.vmEnd } (VmasOk.cons_iff.mpr
        ⟨⟨wfLeft.startAligned, wfRight.endAligned, by dsimp only; omega⟩, okRest,
        laterRight⟩)
      rw [if_pos joined]
      refine ⟨okMerged, low, fun t a => ?_⟩
      rw [same]
      simp only [attrsAt, CellMap.lookup_cons, covers_iff, attrs_anonymous typeLeft,
        attrs_anonymous typeRight,
        attrs_anonymous (v := { left with vmEnd := right.vmEnd }) typeLeft]
      by_cases inLeft : left.vmStart ≤ a ∧ a < left.vmEnd
      · rw [if_pos inLeft, if_pos ⟨inLeft.1, by omega⟩]
      · rw [if_neg inLeft]
        by_cases inRight : right.vmStart ≤ a ∧ a < right.vmEnd
        · rw [if_pos inRight, if_pos ⟨by omega, inRight.2⟩, flags, mode, reservation]
        · rw [if_neg inRight, if_neg (by omega)]
    · rw [if_neg joined]
      obtain ⟨okMerged, low, same⟩ := ih right okRight
      refine ⟨VmasOk.cons_iff.mpr ⟨wfLeft, okMerged, ?_⟩,
        forall_mem_cons.mpr ⟨le_refl _, ?_⟩, fun t a => ?_⟩
      · intro b member
        have := low b member
        omega
      · intro b member
        have := low b member
        omega
      · have tail := same t a
        unfold attrsAt at tail ⊢
        rw [CellMap.lookup_cons, CellMap.lookup_cons, tail]

theorem VmasOk.merged (ok : VmasOk vmas) : VmasOk (mergeAdjacentAnonymousVmas vmas) := by
  cases vmas with
  | nil => exact VmasOk.nil
  | cons left rest => exact (mergeFrom_spec rest left ok).1

theorem attrsAt_merged (ok : VmasOk vmas) (a : Nat) :
    attrsAt t (mergeAdjacentAnonymousVmas vmas) a = attrsAt t vmas a := by
  cases vmas with
  | nil => rfl
  | cons left rest => exact (mergeFrom_spec rest left ok).2.2 t a

/-! ## The two splits of a protection change -/

theorem span_found (found : vmas.span p = (before, v :: after)) :
    vmas = before ++ v :: after ∧ p v = false := by
  rw [span_eq_takeWhile_dropWhile, Prod.mk.injEq] at found
  obtain ⟨taken, dropped⟩ := found
  refine ⟨by rw [← taken, ← dropped, takeWhile_append_dropWhile], ?_⟩
  have stop := head?_dropWhile_not p vmas
  rw [dropped] at stop
  simpa using stop

theorem span_none (found : vmas.span p = (before, [])) : ∀ v ∈ vmas, p v = true := by
  rw [span_eq_takeWhile_dropWhile, Prod.mk.injEq] at found
  exact dropWhile_eq_nil_iff.mp found.2

/-- The cut falls strictly inside the area. -/
def Vma.Cuts (v : Vma) (boundary : Nat) : Prop := v.vmStart < boundary ∧ boundary < v.vmEnd

/-- The right part that a protection split inserts. -/
def Vma.split (t : Target) (v : Vma) (boundary : Nat) (file : Option VfsFile) : Vma :=
  if v.vfile.isSome then v.rightOf t boundary file else { v with vmStart := boundary }

theorem Vma.split_start (t : Target) (v : Vma) (boundary : Nat) (file : Option VfsFile) :
    (v.split t boundary file).vmStart = boundary := by
  unfold split
  split <;> rfl

theorem Vma.split_end (t : Target) (v : Vma) (boundary : Nat) (file : Option VfsFile) :
    (v.split t boundary file).vmEnd = v.vmEnd := by
  unfold split
  split <;> rfl

theorem Vma.attrs_split
    (same : v.vfile.isSome → file = v.vfile) (low : v.vmStart ≤ boundary)
    (inside : boundary ≤ a) :
    (v.split t boundary file).attrs t a = v.attrs t a := by
  unfold split
  by_cases own : v.vfile.isSome
  · rw [if_pos own, same own]
    exact attrs_rightOf low inside
  · rw [if_neg own]
    exact attrs_from (by simp [fileBacked, own]) boundary a

theorem VmasOk.split
    (clone : Option VfsFile) (ok : VmasOk (before ++ original :: after))
    (aligned : Aligned boundary) (cut : original.Cuts boundary) :
    VmasOk
      (before ++ { original with vmEnd := boundary } :: original.split t boundary clone ::
        after) := by
  obtain ⟨wf, -, -⟩ := ok.around
  have wfRight : (original.split t boundary clone).WellFormed := by
    constructor
    · rw [split_start]
      exact aligned
    · rw [split_end]
      exact wf.endAligned
    · rw [split_start, split_end]
      exact cut.2
  have pieces : VmasOk [{ original with vmEnd := boundary }, original.split t boundary clone] := by
    refine VmasOk.cons_iff.mpr
      ⟨wf.below aligned cut.1, VmasOk.cons_iff.mpr ⟨wfRight, VmasOk.nil, by simp⟩, ?_⟩
    intro b member
    obtain rfl := mem_singleton.mp member
    rw [split_start]
  have inside : ∀ m ∈ [{ original with vmEnd := boundary }, original.split t boundary clone],
      original.vmStart ≤ m.vmStart ∧ m.vmEnd ≤ original.vmEnd := by
    intro m member
    simp only [mem_cons, not_mem_nil, or_false] at member
    rcases member with rfl | rfl
    · exact ⟨le_refl _, le_of_lt cut.2⟩
    · rw [split_start, split_end]
      exact ⟨le_of_lt cut.1, le_refl _⟩
  simpa using ok.replace pieces inside

/-- Everything a split can do: refuse and leave the list alone, find nothing to
cut, or cut the one area that holds the boundary. -/
theorem splitProtectedVmaAt_cases (t : Target)
    (clone : Option VfsFile) (append : Bool) (ok : VmasOk vmas) (aligned : Aligned boundary) :
    splitProtectedVmaAt t vmas boundary clone append = (false, vmas, none) ∨
      (splitProtectedVmaAt t vmas boundary clone append = (true, vmas, none) ∧
        ∀ v ∈ vmas, ¬ v.Cuts boundary) ∨
      ∃ before original after, vmas = before ++ original :: after ∧ original.Cuts boundary ∧
        (original.vfile.isSome → clone.isSome) ∧
        splitProtectedVmaAt t vmas boundary clone append =
          (true, before ++ { original with vmEnd := boundary } ::
            original.split t boundary clone :: after, some (before.length, original.vmEnd)) := by
  unfold splitProtectedVmaAt
  split
  · rename_i found
    refine .inr (.inl ⟨rfl, ?_⟩)
    intro v member ⟨above, below⟩
    have := span_none found v member
    simp only [Bool.or_eq_true, decide_eq_true_eq] at this
    omega
  · rename_i before original after found
    obtain ⟨rfl, cut⟩ := span_found found
    simp only [Bool.or_eq_false_iff, decide_eq_false_iff_not, not_le] at cut
    by_cases bare : original.vfile.isSome ∧ clone = none
    · rw [if_pos bare]
      exact .inl rfl
    rw [if_neg bare]
    have okSplit := ok.split (t := t) clone aligned cut
    cases append with
    | false =>
      refine .inl ?_
      simp only [insertVmaSorted_refused]
    | true =>
      have placed :=
        (VmasOk.insert (before ++ [{ original with vmEnd := boundary }]) after
          (by simpa using okSplit)).2
      simp only [append_assoc, cons_append, nil_append] at placed
      refine .inr (.inr ⟨before, original, after, rfl, cut, ?_, ?_⟩)
      · intro own
        cases clone with
        | none => exact absurd ⟨own, rfl⟩ bare
        | some _ => rfl
      · unfold split at placed ⊢
        simp only [placed]

end Mecocoa.Memory
