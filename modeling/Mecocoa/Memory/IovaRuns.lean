import Mecocoa.Lib.Run
import Mecocoa.Memory.Iova

/-! # The translations of a device over any calls

The table of a domain is a radix tree, and what it translates is kept by its
records: populating a range adds the translations of that range or none, and
clearing takes away those of a range and no others.
-/

namespace Mecocoa.Memory

open IovaDomain Nat Option

open Lib (Radix.walk Radix.set Radix.clear Radix.Tree Radix.tree_root)

variable {r : IovaRange}

/-- The way of a device address through the table. -/
def iovaPath (a : Nat) : List Nat := tableIndices a ++ [leafIndex a]

/-- The page that the table has for a device page. -/
def IovaDomain.page (d : IovaDomain) (a : Nat) : Option Nat :=
  Radix.walk d.entries d.root (iovaPath a)

theorem iovaPath_pageFloor (a : Nat) : iovaPath (pageFloor a) = iovaPath a := by
  simp only [iovaPath, tableIndices, leafIndex, pageFloor, pageSize, shiftRight_eq_div_pow]
  simp only [List.cons_append, List.nil_append, List.cons.injEq, and_true]
  omega

theorem iovaPath_inj (alignedA : Aligned a) (alignedB : Aligned b) (smallA : a < 2 ^ 48)
    (smallB : b < 2 ^ 48) (same : iovaPath a = iovaPath b) : a = b := by
  simp only [iovaPath, tableIndices, leafIndex, shiftRight_eq_div_pow, List.cons_append,
    List.nil_append, List.cons.injEq, and_true] at same
  unfold Aligned pageSize at *
  omega

/-- The table of the domain is a tree of the pages it owns. -/
abbrev IovaDomain.TableOk (d : IovaDomain) : Prop := Radix.Tree d.entries d.root 3 d.tables

/-- Only the table changed, no table went away, and the pages are now the given ones. -/
structure Paged (d d' : IovaDomain) (pages : Nat → Option Nat) : Prop where
  ok : d'.TableOk
  mappings : d'.mappings = d.mappings
  kept : ∀ path, path.length ≤ 3 → ∀ table, Radix.walk d.entries d.root path =
    some table →
    Radix.walk d'.entries d'.root path = some table
  pages : ∀ a, Aligned a → a < 2 ^ 48 → d'.page a = pages a

/-- Pages inside the range have what `f` gives, the others what they had. -/
abbrev PagesChanged (first last : Nat) (f : Nat → Option Nat) (d d' : IovaDomain) : Prop :=
  Paged d d' fun a => if first ≤ a ∧ a < last then f a else d.page a

section Iova

variable {d d' mid : IovaDomain}

theorem Paged.refl (ok : d.TableOk) : Paged d d d.page :=
  ⟨ok, rfl, fun _ _ _ here => here, fun _ _ _ => rfl⟩

theorem Paged.trans {g h k} (first : Paged d mid g) (second : Paged mid d' h)
    (same : ∀ a, Aligned a → a < 2 ^ 48 → mid.page a = g a → h a = k a) : Paged d d' k where
  ok := second.ok
  mappings := second.mappings.trans first.mappings
  kept := fun path small table here =>
    second.kept path small table (first.kept path small table here)
  pages := fun a aligned small =>
    (second.pages a aligned small).trans (same a aligned small (first.pages a aligned small))

/-! ## Tables -/

theorem allocateDomainTable_cases (vtd : VtdState) (d : IovaDomain) (answer : Option Nat) :
    allocateDomainTable vtd d answer = (none, d) ∨
      ∃ table, table ∉ d.tables ∧ allocateDomainTable vtd d answer = (some table, { d with
        entries := Radix.clear d.entries table
        tables := d.tables ++ [table] }) := by
  unfold allocateDomainTable
  split
  · exact .inl rfl
  cases answer with
  | none => exact .inl rfl
  | some table =>
    dsimp only
    split
    · exact .inl rfl
    rename_i good
    split
    · exact .inl rfl
    · exact .inr ⟨table, fun member => good (.inr (.inr member)), rfl⟩

/-- A table for the entry, or no change. -/
theorem IovaDomain.TableOk.createNextTable (ok : d.TableOk) (vtd : VtdState) (answer : Option Nat)
    (small : path.length < 3)
    (here : Radix.walk d.entries d.root path = some table) (free : d.entries table index = none) :
    ∃ next d', createNextTable vtd answer d table index = (next, d') ∧ Paged d d' d.page ∧
      ∀ x, next = some x → Radix.walk d'.entries d'.root (path ++ [index]) = some x := by
  unfold Memory.createNextTable
  cases allocateDomainTable_cases vtd d answer with
  | inl refused =>
    rw [refused]
    exact ⟨none, d, rfl, .refl ok, by simp⟩
  | inr given =>
    obtain ⟨next, fresh, given⟩ := given
    rw [given]
    have cleared : Radix.Tree (Radix.clear d.entries next) d.root 3 d.tables := ok.cleared fresh
    have here' : Radix.walk (Radix.clear d.entries next) d.root path = some table :=
      (ok.walk_clear fresh (by omega)).trans here
    have other : table ≠ next := fun same => fresh (same ▸ ok.within path table (by omega) here)
    have free' : Radix.clear d.entries next table index = none := (if_neg other).trans free
    have empty : ∀ j, Radix.clear d.entries next next j = none := fun _ => if_pos rfl
    have walks : ∀ q : List Nat, q.length ≤ 4 →
        Radix.walk (Radix.set (Radix.clear d.entries next) table index (some next)) d.root q =
          if q = path ++ [index] then some next else Radix.walk d.entries d.root q := by
      intro q short
      rw [cleared.walk_link small here' free' fresh empty short, ok.walk_clear fresh short]
    have absent : Radix.walk d.entries d.root (path ++ [index]) = none := by
      rw [Lib.Radix.walk_snoc, here]
      exact free
    refine ⟨some next, _, rfl, ⟨cleared.link small here' free' fresh empty, rfl, ?_, ?_⟩,
      ?_⟩
    · intro q short x there
      apply (walks q (by omega)).trans
      rw [if_neg]
      · exact there
      · rintro rfl
        exact absurd (absent.symm.trans there) (by simp)
    · intro a _ _
      apply (walks (iovaPath a) (le_of_eq rfl)).trans
      apply if_neg
      intro same
      have := congrArg List.length same
      simp [iovaPath, tableIndices] at this
      omega
    · intro x given
      cases given
      exact (walks _ (by simp; omega)).trans (if_pos rfl)

/-- Without leave to create, the loop is the walk. -/
theorem getTable_find (vtd : VtdState) (d : IovaDomain) (indices : List Nat) :
    ∀ table, getTable vtd none d table indices = (Radix.walk d.entries table indices, d) := by
  induction indices with
  | nil => intro table; rfl
  | cons index indices ih =>
    intro table
    cases next : d.entries table index with
    | none => simp [getTable, next, Lib.Radix.walk]
    | some x => simp [getTable, next, Lib.Radix.walk, ih]

theorem IovaDomain.TableOk.getTable (vtd : VtdState) (answer : Nat → Option Nat)
    (indices : List Nat) :
    ∀ (path : List Nat) {d : IovaDomain} {table : Nat}, d.TableOk →
      path.length + indices.length = 3 →
      Radix.walk d.entries d.root path = some table →
      ∃ found d', getTable vtd (some answer) d table indices = (found, d') ∧
      Paged d d' d.page ∧
        ∀ x, found = some x → Radix.walk d'.entries d'.root (path ++ indices) = some x := by
  induction indices with
  | nil =>
    intro path d table ok whole here
    refine ⟨some table, d, rfl, .refl ok, ?_⟩
    rintro x ⟨⟩
    rwa [List.append_nil]
  | cons index indices ih =>
    intro path d table ok whole here
    rw [List.length_cons] at whole
    have tail : ∀ rest : List Nat, path ++ index :: rest = path ++ [index] ++ rest := by simp
    unfold Memory.getTable
    cases next : d.entries table index with
    | some x =>
      have there : Radix.walk d.entries d.root (path ++ [index]) = some x := by
        rw [Lib.Radix.walk_snoc, here]
        exact next
      rw [tail indices]
      exact ih (path ++ [index]) ok (by simp; omega) there
    | none =>
      dsimp only
      obtain ⟨found, d₁, created, grown, there⟩ :=
        ok.createNextTable vtd (answer d.tables.length) (by omega) here next
      rw [created]
      cases found with
      | none => exact ⟨none, d₁, rfl, grown, by simp⟩
      | some x =>
        obtain ⟨last, d₂, ran, grown₂, found⟩ :=
          ih (path ++ [index]) grown.ok (by simp; omega) (there x rfl)
        rw [tail indices]
        exact ⟨last, d₂, ran, grown.trans grown₂ fun _ _ _ is => is, found⟩

/-! ## Leaf entries -/

/-- The entry of a device page. -/
def IsLeaf (d : IovaDomain) (a : Nat) (entry : Nat × Nat) : Prop :=
  Radix.walk d.entries d.root (tableIndices a) = some entry.1 ∧ entry.2 = leafIndex a

theorem IovaDomain.TableOk.getLeafEntry (ok : d.TableOk) (vtd : VtdState)
    (answer : Nat → Option Nat) (a : Nat) :
    ∃ found d', getLeafEntry vtd (some answer) d a = (found, d') ∧ Paged d d' d.page ∧
      ∀ entry, found = some entry → IsLeaf d' a entry := by
  obtain ⟨found, d', ran, grown, there⟩ :=
    TableOk.getTable vtd answer (tableIndices a) [] ok rfl rfl
  unfold Memory.getLeafEntry
  rw [ran]
  cases found with
  | none => exact ⟨none, d', rfl, grown, by simp⟩
  | some table =>
    refine ⟨some (table, leafIndex a), d', rfl, grown, ?_⟩
    rintro entry ⟨⟩
    exact ⟨there table rfl, rfl⟩

theorem IsLeaf.page (leaf : IsLeaf d a entry) : d.page a = d.entries entry.1 entry.2 := by
  unfold IovaDomain.page iovaPath
  rw [Lib.Radix.walk_snoc, leaf.1, leaf.2]
  rfl

/-! ## Ranges of pages -/

theorem Paged.changed (grown : Paged d mid d.page) (changed : PagesChanged first last f mid d') :
    PagesChanged first last f d d' := grown.trans changed fun _ _ _ is => by rw [is]

theorem PagesChanged.none (ok : d.TableOk) (first : Nat) (f : Nat → Option Nat) :
    PagesChanged first first f d d :=
  (Paged.refl ok).trans (.refl ok) fun _ _ _ _ => (if_neg (by omega)).symm

theorem Aligned.same_page (aligned : Aligned a) (alignedB : Aligned b) :
    a ≤ b ∧ b < a + pageSize ↔ b = a := by
  unfold Aligned pageSize at *
  omega

/-- Writing the entry of a page changes what that page is translated to. -/
theorem IsLeaf.set (leaf : IsLeaf d a entry) (ok : d.TableOk)
    (aligned : Aligned a) (small : a < 2 ^ 48) (f : Nat → Option Nat) :
    PagesChanged a (a + pageSize) f d (d.setEntry entry.1 entry.2 (f a)) := by
  have size : (tableIndices a).length = 3 := rfl
  have walks : ∀ q : List Nat, q.length ≤ 4 →
    Radix.walk (d.setEntry entry.1 entry.2 (f a)).entries d.root q =
        if q = tableIndices a ++ [leafIndex a] then f a else Radix.walk d.entries d.root q := by
    intro q short
    rw [← leaf.2]
    exact ok.walk_set_leaf size leaf.1 _ short
  refine ⟨ok.set_leaf size leaf.1 _, rfl, ?_, ?_⟩
  · intro q short x there
    apply (walks q (by omega)).trans
    rw [if_neg]
    · exact there
    · rintro rfl
      simp [size] at short
  · intro b alignedB smallB
    apply (walks (iovaPath b) (le_of_eq rfl)).trans
    simp only [aligned.same_page alignedB]
    by_cases same : b = a
    · rw [if_pos same, same]
      exact if_pos rfl
    · rw [if_neg same]
      apply if_neg
      intro path
      exact same (iovaPath_inj alignedB aligned smallB small path)

theorem IovaDomain.TableOk.clearIovaPage (ok : d.TableOk) (vtd : VtdState) (aligned : Aligned a)
    (small : a < 2 ^ 48) :
    PagesChanged a (a + pageSize) (fun _ => none) d (clearIovaPage vtd d a) := by
  unfold Memory.clearIovaPage Memory.getLeafEntry
  rw [getTable_find]
  cases there : Radix.walk d.entries d.root (tableIndices a) with
  | none =>
    dsimp only [map_none]
    refine (Paged.refl ok).trans (.refl ok) fun b alignedB _ _ => ?_
    split
    · rename_i inside
      rw [(aligned.same_page alignedB).mp inside]
      unfold page iovaPath
      rw [Lib.Radix.walk_snoc, there]
      rfl
    · rfl
  | some table =>
    have leaf : IsLeaf d a (table, leafIndex a) := ⟨there, rfl⟩
    exact leaf.set ok aligned small fun _ => none

theorem PagesChanged.append {mid last}
    (below : first ≤ mid) (above : mid ≤ last) (changed : PagesChanged first mid f d d₁)
    (changed' : PagesChanged mid last f d₁ d') : PagesChanged first last f d d' := by
  refine Paged.trans changed changed' fun a _ _ is => ?_
  rw [is]
  split
  · rw [if_pos (by omega)]
  · split
    · rw [if_pos (by omega)]
    · rw [if_neg (by omega)]

theorem pagesFrom_succ (start count : Nat) :
    pagesFrom start (count + 1) = pagesFrom start count ++ [start + count * pageSize] := by
  simp [pagesFrom, List.range_succ]

theorem IovaDomain.TableOk.clearIovaPages (ok : d.TableOk) (vtd : VtdState)
    (aligned : Aligned first) (count : Nat) (small : first + count * pageSize ≤ 2 ^ 48) :
    PagesChanged first (first + count * pageSize) (fun _ => none) d
      (clearIovaPages vtd d first count) := by
  induction count with
  | zero =>
    exact .none ok first _
  | succ count ih =>
    rw [add_mul, one_mul] at small ⊢
    have before := ih (by omega)
    unfold Memory.clearIovaPages at before ⊢
    rw [pagesFrom_succ, List.foldl_append]
    have place : Aligned (first + count * pageSize) := aligned.add (mul_mod_left ..)
    apply PagesChanged.append (by omega) (by omega) before
    rw [← add_assoc]
    exact before.ok.clearIovaPage vtd place (by unfold pageSize at *; omega)

theorem getTable_found (vtd : VtdState) (table? : Option (Nat → Option Nat)) (d : IovaDomain)
    (indices : List Nat) : ∀ {table x}, Radix.walk d.entries table indices = some x →
      getTable vtd table? d table indices = (some x, d) := by
  induction indices with
  | nil =>
    intro table x here
    cases here
    rfl
  | cons index indices ih =>
    intro table x here
    cases next : d.entries table index with
    | none => simp [Lib.Radix.walk, next] at here
    | some y =>
      simp only [Lib.Radix.walk, next, bind_some] at here
      simp only [getTable, next]
      exact ih here

theorem length_pages (aligned : Aligned length) : length / pageSize * pageSize = length :=
  Nat.div_mul_cancel (Nat.dvd_of_mod_eq_zero aligned)

/-- `PopulateIovaPages` from some page on: all of the range, or what was done is undone.  It cannot
fail where the tables are there and nothing is mapped. -/
theorem IovaDomain.TableOk.populateFrom (vtd : VtdState) (answer : Nat → Option Nat)
    (physical : Nat) (aligned : Aligned first) (bound : last ≤ 2 ^ 48) (left : Nat) :
    ∀ (done start : Nat) {d : IovaDomain}, d.TableOk → first + done * pageSize = start →
      start + left * pageSize = last →
      ∃ result d', populateFrom vtd answer first physical left done d = (result, d') ∧
        (result = true →
          PagesChanged start last (fun a => some (physical + (a - first))) d d') ∧
        (result = false → PagesChanged first start (fun _ => none) d d') ∧
        ((∀ a, Aligned a → start ≤ a → a < last →
          (∃ table, Radix.walk d.entries d.root (tableIndices a) = some table) ∧
          d.page a = none) → result = true) := by
  induction left with
  | zero =>
    rintro done start d ok - rfl
    rw [zero_mul, add_zero]
    exact ⟨true, d, rfl, fun _ => .none ok _ _, by simp, fun _ => rfl⟩
  | succ left ih =>
    intro done start d ok is end_
    rw [add_mul, one_mul] at end_
    have next :
      first + (done + 1) * pageSize =
        start + pageSize := by rw [add_mul, one_mul, ← is, add_assoc]
    have place : Aligned start := is ▸ aligned.add (mul_mod_left ..)
    have positive : 0 < pageSize := by decide
    unfold Memory.populateFrom
    rw [is]
    obtain ⟨found, d₁, got, grown, leaf⟩ := ok.getLeafEntry vtd answer (start)
    rw [got]
    have undone : PagesChanged first (start) (fun _ => none) d
        (Memory.clearIovaPages vtd d₁ first done) :=
      grown.changed (is ▸ grown.ok.clearIovaPages vtd aligned done (by omega))
    cases found with
    | none =>
      refine ⟨false, _, rfl, by simp, fun _ => undone, fun ready => ?_⟩
      obtain ⟨⟨table, there⟩, -⟩ := ready _ place (le_refl _) (by omega)
      rw [Memory.getLeafEntry, getTable_found vtd _ d _ there] at got
      cases got
    | some entry =>
      have here := leaf entry rfl
      obtain ⟨table, index⟩ := entry
      dsimp only
      split
      · rename_i taken
        refine ⟨false, _, rfl, by simp, fun _ => undone, fun ready => ?_⟩
        have absent := (ready _ place (le_refl _) (by omega)).2
        rw [← grown.pages _ place (by omega), here.page] at absent
        simp [absent] at taken
      rename_i free
      have absent : d.page (start) = none := by
        rw [← grown.pages _ place (by omega), here.page]
        simpa using free
      have one :=
        grown.changed (here.set grown.ok place (by omega) fun a => some (physical + (a - first)))
      rw [show start - first = done * pageSize by omega] at one
      obtain ⟨result, d₃, ran, whole, back, sure⟩ := ih (done + 1) _ one.ok next (by omega)
      refine ⟨result, d₃, ran, fun yes => ?_, fun no => ?_,
        fun ready => sure fun a alignedA low high => ?_⟩
      · exact PagesChanged.append (by omega) (by omega) one (whole yes)
      · refine one.trans (back no) fun a alignedA _ is => ?_
        rw [is]
        have only := place.same_page alignedA
        by_cases same : a = start
        · rw [if_pos (by omega), if_neg (by omega), same, absent]
        · rw [if_neg (mt only.mp same)]
          exact if_congr (by omega) rfl rfl
      · obtain ⟨⟨table', there'⟩, absent'⟩ := ready a alignedA (by omega) (by omega)
        refine ⟨⟨table', one.kept _ (le_refl _) _ there'⟩, ?_⟩
        rw [one.pages a alignedA (by omega), if_neg (by omega)]
        exact absent'

/-! ## Records -/

def IovaRange.Apart (r r' : IovaRange) : Prop :=
  r.deviceAddress + r.length ≤ r'.deviceAddress ∨
  r'.deviceAddress + r'.length ≤ r.deviceAddress

/-- The range takes the device address to a physical one. -/
def IovaRange.Maps (r : IovaRange) (a f : Nat) : Prop :=
  r.deviceAddress ≤ a ∧ a < r.deviceAddress + r.length ∧
  f = r.physical + (a - r.deviceAddress)

structure IovaRange.Ok (r : IovaRange) : Prop where
  start : Aligned r.deviceAddress
  size : Aligned r.length
  positive : 0 < r.length
  small : r.deviceAddress + r.length ≤ 2 ^ 48

/-- The pages are those of the ranges. -/
structure Exact (ranges : List IovaRange) (page : Nat → Option Nat) : Prop where
  each : ∀ r ∈ ranges, r.Ok
  apart : ranges.Pairwise IovaRange.Apart
  pages : ∀ a, Aligned a → a < 2 ^ 48 → ∀ f, page a = some f ↔
    ∃ r ∈ ranges, r.Maps a f

/-- The table of the domain translates what its records say. -/
structure DomainOk (d : IovaDomain) : Prop extends Exact d.ranges d.page where
  table : d.TableOk

theorem IovaRange.Apart.symm (apart : r.Apart r') : r'.Apart r := Or.symm apart

namespace Exact

variable {ranges : List IovaRange} {page page' : Nat → Option Nat}

theorem congr (exact : Exact ranges page)
    (same : ∀ a, Aligned a → a < 2 ^ 48 → page' a = page a) (perm : ranges'.Perm ranges) :
    Exact ranges' page' where
  each := fun r member => exact.each r (perm.mem_iff.mp member)
  apart := (perm.pairwise_iff IovaRange.Apart.symm).mpr exact.apart
  pages := by
    intro a aligned small f
    simp only [same a aligned small, exact.pages a aligned small f, perm.mem_iff]

theorem free (exact : Exact ranges page) (aligned : Aligned a) (small : a < 2 ^ 48)
    (apart : ∀ r ∈ ranges, last ≤ r.deviceAddress ∨ r.deviceAddress + r.length ≤ first)
    (inside : first ≤ a ∧ a < last) :
    page a = none := by
  cases here : page a with
  | none => rfl
  | some f =>
    obtain ⟨r, member, above, below, -⟩ := (exact.pages a aligned small f).mp here
    have := apart r member
    omega

/-- A range comes or goes with its pages. -/
theorem cons_iff (okR : r.Ok) (apart : ∀ r' ∈ ranges, r.Apart r')
    (with_ : ∀ a, Aligned a → a < 2 ^ 48 → page' a =
      if r.deviceAddress ≤ a ∧
      a < r.deviceAddress + r.length then some (r.physical + (a - r.deviceAddress)) else page a)
    (without : ∀ a, Aligned a → a < 2 ^ 48 → r.deviceAddress ≤ a ∧
      a < r.deviceAddress + r.length → page a = none) :
    Exact (r :: ranges) page' ↔ Exact ranges page := by
  have pages : ∀ a, Aligned a → a < 2 ^ 48 → ∀ f,
      ((page' a = some f ↔ ∃ r' ∈ r :: ranges, r'.Maps a f) ↔
          (page a = some f ↔ ∃ r' ∈ ranges, r'.Maps a f)) := by
    intro a aligned small f
    rw [with_ a aligned small]
    simp only [List.mem_cons, or_and_right, exists_or, exists_eq_left]
    by_cases inside : r.deviceAddress ≤ a ∧ a < r.deviceAddress + r.length
    · have none : ¬ ∃ r' ∈ ranges, r'.Maps a f := by
        rintro ⟨r', member, above, below, -⟩
        have := apart r' member
        unfold IovaRange.Apart at this
        omega
      simp only [none, or_false, if_pos inside, without a aligned small inside]
      simp [IovaRange.Maps, inside, eq_comm]
    · have other : ¬ r.Maps a f := fun maps => inside ⟨maps.1, maps.2.1⟩
      rw [if_neg inside]
      simp [other]
  constructor
  · rintro ⟨each, apart', exact⟩
    exact ⟨fun r' member => each r' (.tail _ member), (List.pairwise_cons.mp apart').2,
      fun a aligned small f => (pages a aligned small f).mp (exact a aligned small f)⟩
  · rintro ⟨each, apart', exact⟩
    exact ⟨List.forall_mem_cons.mpr ⟨okR, each⟩, .cons apart apart',
      fun a aligned small f => (pages a aligned small f).mpr (exact a aligned small f)⟩

end Exact

theorem filterMap_set_perm {mappings : List (Option IovaRange)} (new : Option IovaRange) :
    ∀ {slot : Nat},
    mappings[slot]? = some old →
      (old.toList ++ (mappings.set slot new).filterMap id).Perm
      (new.toList ++ mappings.filterMap id) := by
  induction mappings with
  | nil => intro slot here; simp at here
  | cons head mappings ih =>
    intro slot here
    cases slot with
    | zero =>
      cases (show head = old by simpa using here)
      cases old <;> cases new <;> simp [List.Perm.swap]
    | succ slot =>
      have rest := ih (show mappings[slot]? = some old by simpa using here)
      cases head with
      | none => simpa using rest
      | some r =>
        exact List.perm_middle.trans ((rest.cons r).trans List.perm_middle.symm)

theorem wrap64_add (smallC : c < 2 ^ 64) (smallL : l < 2 ^ 64) (fits : ¬ wrap64 (c + l) < c) :
    c + l < 2 ^ 64 ∧ wrap64 (c + l) = c + l := by
  unfold wrap64 at *
  omega

/-- The range ends in time and overlaps none of the others. -/
structure IovaFree (ranges : List IovaRange) (length a : Nat) : Prop where
  aligned : Aligned a
  inside : a + length ≤ 2 ^ 48
  apart : ∀ r ∈ ranges, a + length ≤ r.deviceAddress ∨ r.deviceAddress + r.length ≤ a

theorem rangesOverlap_iff (small : right + rightLength ≤ 2 ^ 48)
    (whole : left + leftLength < 2 ^ 64) :
    rangesOverlap left leftLength right rightLength = true ↔ left < right + rightLength ∧
      right < left + leftLength := by
  unfold rangesOverlap wrap64
  rw [mod_eq_of_lt whole, mod_eq_of_lt (show right + rightLength < 2 ^ 64 by omega)]
  simp

/-- Each collision moves the candidate past one of the ranges, so that `rest` holds those it can
still meet. -/
theorem findCandidate_least {ranges}
    (each : ∀ r ∈ ranges, r.deviceAddress + r.length ≤ 2 ^ 48) (small : length < 2 ^ 64)
    (passes : Nat) : ∀ {candidate} {rest : List IovaRange}, Aligned candidate →
      candidate ≤ 2 ^ 48 →
    (∀ r ∈ ranges, r ∈ rest ∨ r.deviceAddress + r.length ≤ candidate) →
    Least (IovaFree ranges length) candidate (findCandidate ranges length passes candidate) ∨
      findCandidate ranges length passes candidate = none ∧ passes ≤ rest.length := by
  induction passes with
  | zero => exact fun _ _ _ => .inr ⟨rfl, Nat.zero_le _⟩
  | succ passes ih =>
    intro candidate rest aligned below passed
    unfold findCandidate
    split
    · rename_i r hit
      have member := List.mem_of_find?_eq_some hit
      have end_ := each r member
      have overlap : candidate < r.deviceAddress + r.length ∧
          r.deviceAddress < candidate + length := by
        have hits := List.find?_some hit
        simp only [rangesOverlap, Bool.and_eq_true, decide_eq_true_iff] at hits
        unfold wrap64 at hits
        omega
      generalize moved : pageFloor (wrap64 (wrap64 (r.deviceAddress + r.length) + (pageSize - 1))) =
        next
      have bounds : r.deviceAddress + r.length ≤ next ∧
          next < r.deviceAddress + r.length + pageSize := by
        rw [← moved]
        unfold pageFloor pageSize wrap64
        omega
      have alignedNext : Aligned next := moved ▸ Aligned.pageFloor _
      have inRest := (passed r member).resolve_right (by omega)
      have least := @ih next (rest.erase r) alignedNext (by unfold Aligned pageSize at *; omega) ?_
      · rcases least with least | ⟨none, many⟩
        · refine .inl (least.skip (by omega) fun b above free => ?_)
          have := free.apart r member
          have := free.aligned
          unfold Aligned pageSize at *
          omega
        · have := List.length_erase_add_one inRest
          exact .inr ⟨none, by omega⟩
      · intro other there
        by_cases same : other = r
        · exact .inr (same ▸ bounds.1)
        · exact (passed other there).imp (List.mem_erase_of_ne same).mpr (by omega)
    · rename_i miss
      left
      split
      · rename_i beyond
        intro b above free
        have := free.inside
        unfold wrap64 at beyond
        omega
      · rename_i fits
        obtain ⟨whole, same⟩ := wrap64_add (by omega) small (fun wraps => fits (.inl wraps))
        refine ⟨le_rfl, ⟨aligned, by omega, fun r member => ?_⟩, fun _ above _ => above⟩
        have apart := List.find?_eq_none.mp miss r member
        rw [rangesOverlap_iff (each r member) whole] at apart
        omega

/-- What `AllocateIovaRange` gives is free. -/
theorem DomainOk.allocateIovaRange (ok : DomainOk d) {preferred slot}
    (small : length < 2 ^ 64) (below : preferred < 2 ^ 64)
    (found : allocateIovaRange d length preferred = some (slot, a)) :
    d.mappings[slot]? = some none ∧ IovaFree d.ranges length a := by
  unfold Memory.allocateIovaRange at found
  cases place : d.mappings.findIdx? (·.isNone) with
  | none => simp [place] at found
  | some free =>
    rw [place] at found
    dsimp only at found
    have isFree : d.mappings[free]? = some none := by
      obtain ⟨inside, none, -⟩ := List.findIdx?_eq_some_iff_getElem.mp place
      rw [List.getElem?_eq_getElem inside]
      simpa using none
    split at found
    · obtain ⟨fits, found⟩ := ite_none_left_eq_some.mp found
      obtain ⟨miss, ⟨⟩⟩ := ite_none_left_eq_some.mp found
      simp only [not_or, not_not] at fits
      obtain ⟨whole, same⟩ := wrap64_add below small fits.2.1
      refine ⟨isFree, fits.1, Nat.le_of_not_lt (same ▸ fits.2.2), fun r member => ?_⟩
      simp only [List.any_eq_true, not_exists, not_and, Bool.not_eq_true] at miss
      have apart := miss r member
      rw [← Bool.not_eq_true, rangesOverlap_iff (ok.each r member).small whole] at apart
      omega
    · obtain ⟨b, candidate, same⟩ := map_eq_some_iff.mp found
      cases same
      have least :=
        @findCandidate_least length _ (fun r member => (ok.each r member).small) small
          (iovaMappingCapacity + 1)
        iovaStartAddress _ (by decide) (by decide) fun r member => .inl member
      rw [candidate] at least
      exact ⟨isFree, (least.resolve_right nofun).2.1⟩

/-- Without a preferred address the search answers with the least free one, in the passes that it
has, and fails only where no free range ends within 48 bits. -/
theorem allocateIovaRange_least (d : IovaDomain) (length : UInt64)
    (slots : d.mappings.length = iovaMappingCapacity)
    (each : ∀ r ∈ d.ranges, r.deviceAddress + r.length ≤ 2 ^ 48)
    (free : d.mappings.findIdx? (·.isNone) = some slot) :
    ∃ answer, allocateIovaRange d length.toNat 0 = answer.map (slot, ·) ∧
      Least (IovaFree d.ranges length.toNat) iovaStartAddress answer := by
  refine ⟨_, by simp only [allocateIovaRange, free]; rfl, ?_⟩
  have least :=
    @findCandidate_least length.toNat _ each length.toNat_lt
      (iovaMappingCapacity + 1) iovaStartAddress _
    (by decide) (by decide) fun r member => .inl member
  refine least.resolve_right fun many => ?_
  have few : d.ranges.length ≤ d.mappings.length := List.length_filterMap_le ..
  omega

theorem allocateIovaRange_least_second :
    let d :=
      { emptyDomain with mappings := some ⟨0x100000, 0x8000, 0x1000⟩ :: List.replicate 47 none }
    ∃ answer, allocateIovaRange d 0x1000 0 = answer.map (1, ·) ∧
      Least (IovaFree d.ranges 0x1000) iovaStartAddress answer :=
  allocateIovaRange_least _ 0x1000 rfl (by simp [IovaDomain.ranges]) (by decide)

/-! ## Calls -/

/-- Taking the pages of a free range away again brings back what was there. -/
theorem DomainOk.cleared (ok : DomainOk d) (vtd : VtdState) (free : IovaFree d.ranges length first)
    {count : Nat} (pages : count * pageSize = length)
    (changed : PagesChanged first (first + length) f d d') :
    Paged d (clearIovaPages vtd d' first count) d.page := by
  have clear := changed.ok.clearIovaPages vtd free.aligned count
  rw [pages] at clear
  refine changed.trans (clear free.inside) fun a aligned small is => ?_
  split
  · rename_i inside
    exact (ok.free aligned small free.apart inside).symm
  · rename_i outside
    rw [is, if_neg outside]

theorem DomainOk.record (ok : DomainOk d) {slot : Nat} (attached : Bool)
    (free : d.mappings[slot]? = some none) (okR : r.Ok)
    (apart : ∀ r' ∈ d.ranges, r.Apart r')
    (changed : PagesChanged r.deviceAddress (r.deviceAddress + r.length)
      (fun a => some (r.physical + (a - r.deviceAddress))) d d') :
    DomainOk { d' with attached, mappings := d'.mappings.set slot (some r) } := by
  have exact : Exact (r :: d.ranges) d'.page :=
      (Exact.cons_iff okR apart changed.pages fun a aligned small inside =>
    ok.free aligned small apart inside).mpr ok.toExact
  refine ⟨exact.congr (fun _ _ _ => rfl) ?_, changed.ok⟩
  unfold ranges
  rw [changed.mappings]
  exact filterMap_set_perm (some r) free

/-- The pages that the tables of a device have. -/
def translations (domain : Option IovaDomain) (deviceAddress : Nat) : Option Nat :=
  domain.bind (·.translate deviceAddress)

theorem translate_eq (d : IovaDomain) (small : a < 2 ^ 48) :
    d.translate a = (d.page (pageFloor a)).map (· + a % pageSize) := by
  unfold IovaDomain.translate page
  rw [if_neg (by omega), iovaPath_pageFloor]
  rfl

theorem translate_congr (same : ∀ a, Aligned a → a < 2 ^ 48 → d'.page a = d.page a) :
    d'.translate = d.translate := by
  funext a
  by_cases small : a < 2 ^ 48
  · rw [translate_eq d small, translate_eq d' small, same _ (Aligned.pageFloor a)
      (lt_of_le_of_lt (div_mul_le_self ..) small)]
  · unfold IovaDomain.translate
    rw [if_pos (by omega), if_pos (by omega)]

/-- What a map leaves: the invariant, and where it failed nothing is translated differently. -/
def MapKeeps (before : Option IovaDomain) (result : Option DmaMapping × Option IovaDomain) :
    Prop :=
  (∀ d, result.2 = some d → DomainOk d) ∧
  (result.1 = none → translations result.2 = translations before)

theorem DomainOk.unchanged (ok : DomainOk d) (same : Paged d d' d.page) (attached : Bool)
    (mapping : Option DmaMapping) : MapKeeps (some d) (mapping, some { d' with attached }) := by
  constructor
  · rintro d'' ⟨⟩
    have ranges : d'.ranges = d.ranges := congrArg (List.filterMap id) same.mappings
    exact ⟨ok.toExact.congr same.pages (.of_eq ranges), same.ok⟩
  · intro _
    exact translate_congr same.pages

/-- `MapDeviceDma` in a domain that keeps the invariant; a domain that is new translates nothing. -/
theorem DomainOk.mapInDomain (ok : DomainOk d) (vtd : VtdState) (newDomain : Bool)
    (blank : newDomain = true → d.translate = fun _ => none) (physical : Nat)
    (aligned : Aligned length) (positive : 0 < length) (small : length < 2 ^ 64)
    (below : preferred < 2 ^ 64) (outcome : MapDmaOutcome) :
    MapKeeps (some d) (mapInDomain vtd newDomain d physical length preferred outcome) := by
  have pages := length_pages aligned
  have gone : ∀ {d' : IovaDomain}, Paged d d' d.page →
      MapKeeps (some d) (none, if newDomain then none else some d') := by
    intro d' same
    cases newDomain with
    | true => exact ⟨by simp, fun _ => (blank rfl).symm⟩
    | false => exact ok.unchanged same d'.attached none
  unfold Memory.mapInDomain
  cases found : Memory.allocateIovaRange d length preferred with
  | none => exact gone (.refl ok.table)
  | some place =>
    obtain ⟨slot, first⟩ := place
    obtain ⟨slotFree, free⟩ := ok.allocateIovaRange small below found
    obtain ⟨result, d₁, ran, whole, back, -⟩ :=
      TableOk.populateFrom vtd outcome.table physical free.aligned free.inside
      (length / pageSize) 0 first ok.table (by simp) (by rw [pages])
    dsimp only
    unfold populateIovaPages
    rw [ran]
    cases result with
    | false =>
      exact gone
        ((back rfl).trans (.refl (back rfl).ok) fun a _ _ is => is.trans (if_neg (by omega)))
    | true =>
      have mapped := whole rfl
      have cleared := ok.cleared vtd free pages mapped
      dsimp only
      split
      · exact gone cleared
      · split
        · exact ok.unchanged cleared true none
        · split
          · exact ok.unchanged cleared true none
          · refine ⟨?_, by simp⟩
            rintro d' ⟨⟩
            exact ok.record true slotFree (r := ⟨first, physical, length⟩)
              ⟨free.aligned, aligned, positive, free.inside⟩ free.apart mapped

theorem createDomain_ok (created : createDomain vtd slot answer = some d) :
    DomainOk d ∧ d.translate = fun _ => none := by
  obtain ⟨_, created⟩ := ite_none_left_eq_some.mp created
  cases allocateDomainTable_cases vtd emptyDomain answer with
  | inl refused => simp [refused] at created
  | inr given =>
    obtain ⟨root, -, given⟩ := given
    rw [given] at created
    cases created
    have empty : ∀ table index, Radix.clear emptyDomain.entries root table index = none := by
      intro table index
      unfold Lib.Radix.clear emptyDomain
      simp
    have page : ∀ a, Radix.walk (Radix.clear emptyDomain.entries root) root (iovaPath a) =
        none := by
      intro a
      simp [iovaPath, tableIndices, Lib.Radix.walk, empty]
    refine ⟨⟨⟨fun _ member => absurd member List.not_mem_nil, .nil, fun a _ _ f => ?_⟩,
      Radix.tree_root _ root 3 (empty root)⟩, ?_⟩
    · rw [IovaDomain.page, page a]
      refine ⟨by simp, ?_⟩
      rintro ⟨r, member, -⟩
      exact absurd member List.not_mem_nil
    · funext a
      unfold IovaDomain.translate
      split
      · rfl
      · rw [show tableIndices a ++ [leafIndex a] = iovaPath a from rfl, page a]
        rfl

theorem findRange_some {mappings} :
    ∀ {slot place : Nat} {r : IovaRange}, findRange deviceAddress length mappings slot =
      some (place, r) →
      ∃ k, place = slot + k ∧ mappings[k]? = some (some r) ∧
      r.deviceAddress = deviceAddress ∧ r.length = length := by
  induction mappings with
  | nil => intro slot place r found; simp [findRange] at found
  | cons head mappings ih =>
    intro slot place r found
    have later : findRange deviceAddress length mappings (slot + 1) = some (place, r) →
        ∃ k, place = slot + k ∧ (head :: mappings)[k]? = some (some r) ∧
          r.deviceAddress = deviceAddress ∧ r.length = length := by
      intro found
      obtain ⟨k, is, here, same⟩ := ih found
      exact ⟨k + 1, by omega, by simpa using here, same⟩
    cases head with
    | none => exact later found
    | some first =>
      unfold findRange at found
      split at found
      · rename_i same
        cases found
        exact ⟨0, rfl, rfl, same⟩
      · exact later found

/-- What `UnmapDeviceDma` does with the record it found. -/
theorem DomainOk.unmap (ok : DomainOk d) (vtd : VtdState) (outcome : UnmapDmaOutcome) {slot : Nat}
    (here : d.mappings[slot]? = some (some r)) :
    let cleared := clearIovaPages vtd d r.deviceAddress (r.length / pageSize)
    DomainOk { cleared with mappings := cleared.mappings.set slot none } ∧
      DomainOk
      (populateIovaPages vtd outcome.table cleared r.deviceAddress r.physical r.length).2 := by
  intro cleared
  have perm : d.ranges.Perm (r :: (d.mappings.set slot none).filterMap id) :=
    (filterMap_set_perm none here).symm
  have exact := ok.toExact.congr (fun _ _ _ => rfl) perm.symm
  have okR := exact.each r (.head _)
  have apart := (List.pairwise_cons.mp exact.apart).1
  have pages := length_pages okR.size
  have bound := okR.small
  have inside : ∀ a, Aligned a → a < 2 ^ 48 → r.deviceAddress ≤ a →
    a < r.deviceAddress + r.length →
      d.page a = some (r.physical + (a - r.deviceAddress)) := fun a aligned small low high =>
    (exact.pages a aligned small _).mpr ⟨r, .head _, low, high, rfl⟩
  have taken :
      PagesChanged r.deviceAddress (r.deviceAddress + r.length) (fun _ => none) d cleared := by
    have changed := ok.table.clearIovaPages vtd okR.start (r.length / pageSize) (by rwa [pages])
    rwa [pages] at changed
  constructor
  · have rest : Exact ((d.mappings.set slot none).filterMap id) cleared.page := by
      refine (Exact.cons_iff okR apart ?_ ?_).mp exact
      · intro a aligned small
        rw [taken.pages a aligned small]
        split
        · rename_i within
          exact inside a aligned small within.1 within.2
        · rfl
      · intro a aligned small within
        rw [taken.pages a aligned small, if_pos within]
    rw [← taken.mappings] at rest
    exact ⟨rest, taken.ok⟩
  · obtain ⟨result, d₁, ran, whole, -, sure⟩ :=
      TableOk.populateFrom vtd outcome.table r.physical okR.start bound
      (r.length / pageSize) 0 r.deviceAddress taken.ok (by simp) (by rw [pages])
    have again := whole (sure (by
      intro a aligned low high
      constructor
      · have there := inside a aligned (by omega) low high
        unfold page iovaPath at there
        rw [Lib.Radix.walk_snoc] at there
        obtain ⟨table, walked, -⟩ := bind_eq_some_iff.mp there
        exact ⟨table, taken.kept _ (le_refl _) _ walked⟩
      · rw [taken.pages a aligned (by omega), if_pos ⟨low, high⟩]))
    unfold populateIovaPages
    rw [ran]
    refine (ok.unchanged (taken.trans again fun a aligned small is => ?_) d₁.attached none).1 d₁
      rfl
    split
    · rename_i within
      exact (inside a aligned small within.1 within.2).symm
    · rename_i outside
      rw [is, if_neg outside]

/-- One call keeps the invariant, and a map that fails changes no translation. -/
theorem DmaCall.exec_ok (vtd : VtdState) (ok : ∀ d, domain = some d → DomainOk d)
    (call : DmaCall) : (∀ d, (call.exec vtd domain).2 = some d → DomainOk d) ∧
      ∀ pciDevice physical length flags outcome,
      call = .map pciDevice physical length flags outcome →
        (call.exec vtd domain).1 = false →
        translations (call.exec vtd domain).2 = translations domain := by
  cases call with
  | map pciDevice physical length flags outcome =>
    suffices kept :
        MapKeeps domain (mapDeviceDma vtd domain pciDevice physical length flags outcome) by
      refine ⟨kept.1, fun _ _ _ _ _ _ failed => kept.2 ?_⟩
      simpa [DmaCall.exec] using failed
    unfold mapDeviceDma
    split
    · exact ⟨ok, fun _ => rfl⟩
    split
    · exact ⟨ok, fun _ => rfl⟩
    rename_i sound
    split
    · exact ⟨ok, fun _ => rfl⟩
    split
    · exact ⟨ok, fun _ => rfl⟩
    simp only [not_or, not_not] at sound
    have positive : 0 < length.toNat := pos_of_ne_zero fun zero =>
      sound.2.1 (UInt64.toNat_inj.mp zero)
    have below : (if flags &&& identityFlag ≠ 0 then physical.toNat else 0) < 2 ^ 64 := by
      split
      · exact physical.toNat_lt
      · decide
    cases domain with
    | some d =>
      exact (ok d rfl).mapInDomain vtd false (by simp) physical.toNat sound.2.2.2 positive
        length.toNat_lt below outcome
    | none =>
      cases created : createDomain vtd outcome.slot (outcome.table 0) with
      | none => exact ⟨by simp, fun _ => rfl⟩
      | some d =>
        obtain ⟨okNew, blank⟩ := createDomain_ok created
        obtain ⟨kept, same⟩ := okNew.mapInDomain vtd true (fun _ => blank)
          physical.toNat sound.2.2.2 positive length.toNat_lt below outcome
        exact ⟨kept, fun failed => (same failed).trans blank⟩
  | unmap deviceAddress length outcome =>
    refine ⟨?_, by simp⟩
    change ∀ d, (unmapDeviceDma vtd domain deviceAddress length outcome).2 = some d → DomainOk d
    unfold unmapDeviceDma
    split
    · exact ok
    split
    · exact ok
    cases domain with
    | none => simp
    | some d =>
      dsimp only
      split
      · exact ok
      cases found : findRange deviceAddress.toNat length.toNat d.mappings 0 with
      | none => exact ok
      | some place =>
        obtain ⟨slot, r⟩ := place
        obtain ⟨k, is, here, start, size⟩ := findRange_some found
        rw [zero_add] at is
        subst is
        have unmapped := (ok d rfl).unmap vtd outcome here
        rw [start, size] at unmapped
        dsimp only
        split
        · rintro d' ⟨⟩
          exact unmapped.2
        · rintro d' ⟨⟩
          exact unmapped.1

end Iova

/-! ## Any calls -/

/-- The domain of a device after calls. -/
def afterCalls (vtd : VtdState) (calls : List DmaCall) : Option IovaDomain :=
  calls.foldl (fun domain call => (call.exec vtd domain).2) none

theorem domainOk_afterCalls (vtd : VtdState) (calls : List DmaCall) :
    ∀ d, afterCalls vtd calls = some d → DomainOk d := by
  induction calls using List.reverseRecOn with
  | nil => intro d none; cases none
  | append_singleton calls call ih =>
    rw [afterCalls, List.foldl_append]
    exact (call.exec_ok vtd ih).1

/-- What the hardware translates is what the records say, at every offset. -/
theorem DomainOk.translate_iff (ok : DomainOk d) (a q : Nat) :
    d.translate a = some q ↔ ∃ r ∈ d.ranges, r.Maps a q := by
  by_cases small : a < 2 ^ 48
  · have floor : pageFloor a + a % pageSize = a := div_add_mod' a pageSize
    have offset : a % pageSize < pageSize := mod_lt a (by decide)
    have aligned : Aligned (pageFloor a) := Aligned.pageFloor a
    rw [translate_eq d small, map_eq_some_iff]
    constructor
    · rintro ⟨f, here, rfl⟩
      obtain ⟨r, member, low, high, is⟩ := (ok.pages _ aligned (by omega) f).mp here
      have okR := ok.each r member
      have whole := (aligned.lt_iff_add_le (okR.start.add okR.size)).mp high
      refine ⟨r, member, by omega, by omega, by omega⟩
    · rintro ⟨r, member, low, high, rfl⟩
      have okR := ok.each r member
      have above : r.deviceAddress ≤ pageFloor a := by
        by_contra less
        have := (aligned.lt_iff_add_le okR.start).mp (by omega)
        omega
      refine ⟨r.physical + (pageFloor a - r.deviceAddress), ?_, by omega⟩
      exact (ok.pages _ aligned (by omega) _).mpr ⟨r, member, above, by omega, rfl⟩
  · unfold IovaDomain.translate
    rw [if_pos (by omega)]
    simp only [reduceCtorEq, false_iff, not_exists, not_and]
    intro r member maps
    have := (ok.each r member).small
    have := maps.2.1
    omega

/-- After any calls for a device its active ranges are disjoint and the table translates exactly
them; a map that fails then changes no translation. -/
theorem dma_translations_exact (vtd : VtdState) (calls : List DmaCall) :
    (∀ d, afterCalls vtd calls = some d →
      d.ranges.Pairwise IovaRange.Apart ∧ ∀ a q, d.translate a = some q ↔ ∃ r ∈ d.ranges,
          r.deviceAddress ≤ a ∧ a < r.deviceAddress + r.length ∧
          q = r.physical + (a - r.deviceAddress)) ∧
      ∀ pciDevice physical length flags outcome,
        (mapDeviceDma vtd (afterCalls vtd calls) pciDevice physical length flags outcome).1 =
        none →
          translations
          (mapDeviceDma vtd (afterCalls vtd calls) pciDevice physical length flags outcome).2 =
            translations (afterCalls vtd calls) := by
  have ok := domainOk_afterCalls vtd calls
  constructor
  · intro d here
    exact ⟨(ok d here).apart, (ok d here).translate_iff⟩
  · intro pciDevice physical length flags outcome failed
    exact (DmaCall.exec_ok vtd ok (.map pciDevice physical length flags outcome)).2 _ _ _ _ _ rfl
      (by simp [DmaCall.exec, failed])

end Mecocoa.Memory
